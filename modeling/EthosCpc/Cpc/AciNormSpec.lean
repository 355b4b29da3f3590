import EthosCpc.Cpc.AciNorm
import EthosCpc.Library.BitAppend
import EthosCpc.Cpc.EvaluateSpec

/-!
# Soundness of normalization for associative operators

An operator of the rules `aci_norm` and `absorb` is a monoid on the values it
is applied to, with its nil terminator as the identity: `ListModel`.  The
value of a list is the combination of the values of its elements, so every
builtin list operator that a normal form uses keeps the value, removal of
repetitions only if the monoid is idempotent and commutative.
-/

namespace EthosCpc

open Term (bop uop)
open Library
open Option (bind_some some.inj)

variable {Γ : Nat → Ty} {I : Interp Γ}

/-! ## Operators as monoids -/

/-- The operator `s` with nil terminator `nil` is a monoid on the values that
`emb` embeds, among them the values of type `T`. -/
structure ListModel (I : Interp Γ) (s : Sym) (T : Ty) (nil : Term) where
  M : Type
  op : M → M → M
  e : M
  assoc : Std.Associative op
  ident : Std.LawfulIdentity op e
  emb : M → Val I.U
  inj : Function.Injective emb
  emb_of_type : ∀ v : Dom I.U T, ∃ m, (⟨T, v⟩ : Val I.U) = emb m
  arity : s.arity = 2
  symVal_emb : ∀ x y, symVal I s [emb x, emb y] = some (emb (op x y))
  symVal_inv : ∀ u v r, symVal I s [u, v] = some (emb r) → ∃ x y, u = emb x ∧ v = emb y
  value_nil : value I nil = some (emb e)
  nilFor_eq : ∀ {a : Term} {m : M} {n : Term}, value I a = some (emb m) →
    nilFor Γ s a = some n → n = nil

namespace ListModel

variable {s : Sym} {T : Ty} {nil : Term} (L : ListModel I s T nil)

open Classical in
/-- A term read as an element of the monoid. -/
noncomputable def read (t : Term) : Option L.M :=
  if h : ∃ m, value I t = some (L.emb m) then some h.choose else none

variable {L}

variable {m : L.M}

lemma read_eq_some {t : Term} : L.read t = some m ↔ value I t = some (L.emb m) := by
  unfold read
  split
  · rename_i h
    have hspec := h.choose_spec
    rw [Option.some.injEq]
    constructor
    · intro heq
      rw [← heq]
      exact hspec
    · intro hv
      exact L.inj (some.inj (hspec.symm.trans hv))
  rename_i h
  constructor
  · intro hm
    contradiction
  · intro hm
    exact absurd ⟨m, hm⟩ h

lemma exists_read (L : ListModel I s T nil) {t : Term} (h : typeof Γ t = some T) :
    ∃ m, L.read t = some m := by
  obtain ⟨v, hv⟩ := value_of_typeof I h
  obtain ⟨m, hm⟩ := L.emb_of_type v
  exact ⟨m, read_eq_some.2 (hv.trans (congrArg some hm))⟩

lemma value_eq_of_read {t t' : Term} (h : L.read t = some m) (h' : L.read t' = some m) :
    value I t = value I t' := (read_eq_some.1 h).trans (read_eq_some.1 h').symm

lemma read_nil : L.read nil = some L.e := read_eq_some.2 L.value_nil

lemma read_bop {x y : Term} {r : L.M} : L.read (bop s x y) = some r ↔
    ∃ a b, L.read x = some a ∧ L.read y = some b ∧ r = L.op a b := by
  rw [read_eq_some]
  constructor
  · intro h
    obtain ⟨u, v, hu, hv, h⟩ := value_bop_inv I L.arity h
    obtain ⟨a, b, rfl, rfl⟩ := L.symVal_inv u v r h
    rw [L.symVal_emb, Option.some.injEq] at h
    exact ⟨a, b, read_eq_some.2 hu, read_eq_some.2 hv, (L.inj h).symm⟩
  · rintro ⟨a, b, ha, hb, rfl⟩
    rw [value_bop I L.arity, read_eq_some.1 ha, read_eq_some.1 hb]
    exact L.symVal_emb a b

lemma read_prepend {xs : List Term} : L.read (prependNAryChildren (.sym s) nil xs) = some m ↔
      foldRead L.op L.e L.read xs = some m := by
  induction xs generalizing m with
  | nil => rw [prependNAryChildren_nil, read_nil, foldRead_nil]
  | cons x xs ih =>
    rw [prependNAryChildren_cons, read_bop, foldRead_cons_eq_some]
    simp only [ih]

/-! ## The builtin operators -/

variable {a r : Term}

lemma read_eoListConcat {b : Term} {m n : L.M} (ha : L.read a = some m)
    (hb : L.read b = some n) (h : eoListConcat (.sym s) nil a b = some r) :
    L.read r = some (L.op m n) := by
  obtain ⟨xs, ys, hxs, hys, rfl⟩ := eoListConcat_spec h
  rw [eq_of_getNAryChildren hxs] at ha
  rw [eq_of_getNAryChildren hys] at hb
  have := L.assoc
  have := L.ident
  exact read_prepend.2 (foldRead_append (read_prepend.1 ha) (read_prepend.1 hb))

lemma read_listConcat {b : Term} {m n : L.M} (ha : L.read a = some m)
    (hb : L.read b = some n) (h : listConcat Γ s a b = some r) : L.read r = some (L.op m n) := by
  obtain ⟨nil', hnil, h⟩ := bind_inv h
  obtain rfl := L.nilFor_eq (read_eq_some.1 ha) hnil
  exact read_eoListConcat ha hb h

lemma read_eoListSingletonElim (ha : L.read a = some m)
    (h : eoListSingletonElim (.sym s) nil a = some r) : L.read r = some m := by
  rcases eoListSingletonElim_spec h with rfl | rfl
  · exact ha
  have := L.ident
  rw [read_prepend, foldRead_singleton] at ha
  exact ha

lemma read_listSingletonElim (ha : L.read a = some m)
    (h : listSingletonElim Γ s a = some r) : L.read r = some m := by
  obtain ⟨nil', hnil, h⟩ := bind_inv h
  obtain rfl := L.nilFor_eq (read_eq_some.1 ha) hnil
  exact read_eoListSingletonElim ha h

lemma read_listSetof (hcomm : Std.Commutative L.op) (hidem : Std.IdempotentOp L.op)
    (ha : L.read a = some m) (h : listSetof Γ s a = some r) : L.read r = some m := by
  obtain ⟨nil', hnil, h⟩ := bind_inv h
  obtain rfl := L.nilFor_eq (read_eq_some.1 ha) hnil
  obtain ⟨xs, ys, hxs, rfl, hsub, hsub'⟩ := eoListSetof_spec h
  rw [eq_of_getNAryChildren hxs, read_prepend] at ha
  have := L.assoc
  rw [read_prepend, foldRead_of_subset hsub hsub', ha]

lemma read_listMeq (hcomm : Std.Commutative L.op) {b : Term} {m n : L.M}
    (ha : L.read a = some m) (hb : L.read b = some n)
    (h : listMeq Γ s a b = some (.bool true)) : m = n := by
  obtain ⟨nil', hnil, h⟩ := bind_inv h
  obtain rfl := L.nilFor_eq (read_eq_some.1 ha) hnil
  obtain ⟨xs, ys, hxs, hys, hperm⟩ := eoListMeq_spec h
  rw [eq_of_getNAryChildren hxs, read_prepend] at ha
  rw [eq_of_getNAryChildren hys, read_prepend] at hb
  have := L.assoc
  rw [foldRead_perm hperm, hb] at ha
  exact (some.inj ha).symm

/-! ## Normal forms -/

/-- Flattening keeps the reading, if what is done to the concatenations does. -/
lemma read_normRec {post : Term → Option Term}
    (hpost : ∀ {a r m}, L.read a = some m → post a = some r → L.read r = some m) :
    ∀ {t r : Term} {m : L.M}, L.read t = some m → normRec Γ post s nil t = some r →
      L.read r = some m := by
  have hsingle : ∀ {t : Term} {m : L.M}, L.read t = some m → L.read (bop s t nil) = some m := by
    intro t m ht
    have hid := L.ident
    refine read_bop.2 ⟨m, L.e, ht, read_nil, ?_⟩
    exact (Std.LawfulRightIdentity.right_id m).symm
  intro t
  induction t using normRec.induct s nil with
  | case1 x1 x2 ih1 ih2 =>
    intro r m ht h
    obtain ⟨a, b, ha, hb, rfl⟩ := read_bop.1 ht
    rw [normRec, if_pos rfl] at h
    obtain ⟨l1, h1, h⟩ := bind_inv h
    obtain ⟨l2, h2, h⟩ := bind_inv h
    obtain ⟨c, hc, h⟩ := bind_inv h
    exact hpost (read_listConcat (ih1 ha h1) (ih2 hb h2) hc) h
  | case2 f x1 x2 hf hid =>
    intro r m ht h
    rw [normRec, if_neg hf, if_pos hid, Option.some.injEq] at h
    have hr : r = .app (.app f x1) x2 := by rw [hid, h]
    rw [hr]
    exact ht
  | case3 f x1 x2 hf hid =>
    intro r m ht h
    rw [normRec, if_neg hf, if_neg hid, Option.some.injEq] at h
    rw [← h]
    exact hsingle ht
  | case4 hx =>
    intro r m ht h
    rw [normRec, if_pos rfl, Option.some.injEq] at h
    · rw [← h]
      exact ht
    · exact hx
  | case5 x hx hid =>
    intro r m ht h
    rw [normRec, if_neg hid, Option.some.injEq] at h
    · rw [← h]
      exact hsingle ht
    · exact hx

lemma read_getANorm {t : Term} (ht : L.read t = some m)
    (hnil : nilAt Γ s t = some nil) (h : getANorm Γ s t = some r) : L.read r = some m := by
  rw [getANorm, hnil, bind_some] at h
  obtain ⟨l, hl, h⟩ := bind_inv h
  have hpost : ∀ {a r m}, L.read a = some m → some a = some r → L.read r = some m := by
    intro a r m ha har
    cases har
    exact ha
  exact read_listSingletonElim (read_normRec hpost ht hl) h

lemma read_getAiNorm (hcomm : Std.Commutative L.op) (hidem : Std.IdempotentOp L.op) {t : Term}
    (ht : L.read t = some m) (hnil : nilAt Γ s t = some nil)
    (h : getAiNorm Γ s t = some r) : L.read r = some m := by
  rw [getAiNorm, hnil, bind_some] at h
  obtain ⟨l, hl, h⟩ := bind_inv h
  exact read_listSingletonElim (read_normRec (read_listSetof hcomm hidem) ht hl) h

lemma read_isAbsorbRec {zero : Term} {z : L.M} (hz : L.read zero = some z)
    (hleft : ∀ m, L.op z m = z) (hright : ∀ m, L.op m z = z) :
    ∀ {t : Term} {m : L.M}, L.read t = some m → isAbsorbRec (.sym s) zero t = true → m = z := by
  intro t
  induction t using isAbsorbRec.induct (.sym s) zero with
  | case1 g a b heq =>
    intro m ht _
    rw [heq, hz] at ht
    exact (some.inj ht).symm
  | case2 a b hne iha ihb =>
    intro m ht h
    rw [isAbsorbRec, if_neg hne, if_pos rfl, Bool.or_eq_true] at h
    obtain ⟨p, q, hp, hq, rfl⟩ := read_bop.1 ht
    rcases h with h | h
    · rw [iha hp h]
      exact hleft q
    · rw [ihb hq h]
      exact hright p
  | case3 g a b hne hg =>
    intro m ht h
    rw [isAbsorbRec, if_neg hne, if_neg hg] at h
    contradiction
  | case4 t ht' =>
    intro m ht h
    rw [isAbsorbRec, decide_eq_true_eq] at h
    · rw [h, hz] at ht
      exact (some.inj ht).symm
    · exact ht'

end ListModel

/-! ## The operators of the rules -/

/-- A Boolean connective. -/
def boolModel (I : Interp Γ) {s : Sym} {f : Bool → Bool → Bool} {e : Bool} (hs : s.arity = 2)
    (hsym : symVal I s = vBool2 f) (hassoc : Std.Associative f) (hident : Std.LawfulIdentity f e)
    (hnil : ∀ a, nilFor Γ s a = some (.bool e)) : ListModel I s .bool (.bool e) where
  M := Bool
  op := f
  e := e
  assoc := hassoc
  ident := hident
  emb := Val.bool
  inj := fun _ _ h => Val.bool_inj.1 h
  emb_of_type := fun v => ⟨v, rfl⟩
  arity := hs
  symVal_emb := fun _ _ => by rw [hsym]; rfl
  symVal_inv := by
    intro u v r h
    rw [hsym] at h
    obtain ⟨x, y, heq, -⟩ := vBool2_inv h
    cases heq
    exact ⟨x, y, rfl, rfl⟩
  value_nil := rfl
  nilFor_eq := fun _ h => some.inj (h.symm.trans (hnil _))

/-- An operator on regular languages. -/
def reglanModel (I : Interp Γ) {s : Sym} {f : RegLan → RegLan → RegLan}
    {e : RegLan} {nil : Term} (hs : s.arity = 2) (hsym : symVal I s = vReglan2 f)
    (hassoc : Std.Associative f) (hident : Std.LawfulIdentity f e)
    (hval : value I nil = some (Val.reglan e)) (hnil : ∀ a, nilFor Γ s a = some nil) :
    ListModel I s .reglan nil where
  M := RegLan
  op := f
  e := e
  assoc := hassoc
  ident := hident
  emb := Val.reglan
  inj := fun _ _ h => Val.mk_inj.1 h
  emb_of_type := fun v => ⟨v, rfl⟩
  arity := hs
  symVal_emb := fun _ _ => by rw [hsym]; rfl
  symVal_inv := by
    intro u v r h
    rw [hsym] at h
    obtain ⟨x, y, heq, -⟩ := vReglan2_inv h
    cases heq
    exact ⟨x, y, rfl, rfl⟩
  value_nil := hval
  nilFor_eq := fun _ h => some.inj (h.symm.trans (hnil _))

/-- A bitwise operator at a fixed width. -/
def bvModel (I : Interp Γ) {s : Sym} {w : Nat} {f : ∀ w, BitVec w → BitVec w → BitVec w}
    {e : BitVec w} {nil : Term} (hs : s.arity = 2)
    (hsym : symVal I s = vBv2 fun w x y => .bitvec (f w x y)) (hassoc : Std.Associative (f w))
    (hident : Std.LawfulIdentity (f w) e) (hval : value I nil = some (Val.bitvec e))
    (hpar : s.nilIsParameterized = true) (hnil : eoNil s (.bitvec w) = some nil) :
    ListModel I s (.bitvec w) nil where
  M := BitVec w
  op := f w
  e := e
  assoc := hassoc
  ident := hident
  emb := Val.bitvec
  inj := fun _ _ h => Val.bitvec_inj.1 h
  emb_of_type := fun v => ⟨v, rfl⟩
  arity := hs
  symVal_emb := fun x y => by rw [hsym]; simp [vBv2]
  symVal_inv := by
    intro u v r h
    rw [hsym] at h
    obtain ⟨w', x, y, heq, hr⟩ := vBv2_inv h
    cases heq
    obtain rfl := Val.width_eq hr
    exact ⟨x, y, rfl, rfl⟩
  value_nil := hval
  nilFor_eq := fun ha h => nilFor_of_value hpar hnil ha h

def seqModel (I : Interp Γ) {T : Ty} {nil : Term} (hval : value I nil = some (Val.seq T []))
    (hnil : eoNil .strConcat (.seq T) = some nil) : ListModel I .strConcat (.seq T) nil where
  M := List (Dom I.U T)
  op := (· ++ ·)
  e := []
  assoc := inferInstance
  ident := inferInstance
  emb := Val.seq T
  inj := fun _ _ h => Val.mk_inj.1 h
  emb_of_type := fun v => ⟨v, rfl⟩
  arity := rfl
  symVal_emb := fun x y => by simp [symVal.eq_def, vSeq2]
  symVal_inv := by
    intro u v r h
    obtain ⟨S, x, y, heq, hr⟩ := vSeq2_inv (show vSeq2 [u, v] = some _ from h)
    cases heq
    obtain rfl : T = S := Ty.seq.inj (congrArg Sigma.fst hr)
    exact ⟨x, y, rfl, rfl⟩
  value_nil := hval
  nilFor_eq := fun ha h => nilFor_of_value rfl hnil ha h

/-- Concatenation of bit-vectors of all widths. -/
def concatModel (I : Interp Γ) (n : Nat) : ListModel I .concat (.bitvec n) (.bin 0 0#0) where
  M := Σ w, BitVec w
  op := bitAppend
  e := ⟨0, 0#0⟩
  assoc := bitAppend_assoc
  ident := bitAppend_ident
  emb := fun x => Val.bitvec x.2
  inj := by
    rintro ⟨w, p⟩ ⟨w', q⟩ h
    have hpq : (Val.bitvec p : Val I.U) = Val.bitvec q := h
    obtain rfl := Val.width_eq hpq
    rw [Val.bitvec_inj.1 hpq]
  emb_of_type := fun v => ⟨⟨n, v⟩, rfl⟩
  arity := rfl
  symVal_emb := fun _ _ => rfl
  symVal_inv := by
    intro u v r h
    obtain ⟨w, w', x, y, heq, -⟩ := vConcat_inv
      (show vConcat (fun _ _ x y => .bitvec (x ++ y)) [u, v] = some _ from h)
    cases heq
    exact ⟨⟨w, x⟩, ⟨w', y⟩, rfl, rfl⟩
  value_nil := rfl
  nilFor_eq := fun _ h => (some.inj h).symm

def orModel (I : Interp Γ) : ListModel I .or .bool (.bool false) :=
  boolModel I rfl rfl ⟨Bool.or_assoc⟩ { left_id := Bool.false_or, right_id := Bool.or_false }
    fun _ => rfl

def andModel (I : Interp Γ) : ListModel I .and .bool (.bool true) :=
  boolModel I rfl rfl ⟨Bool.and_assoc⟩ { left_id := Bool.true_and, right_id := Bool.and_true }
    fun _ => rfl

def reUnionModel (I : Interp Γ) : ListModel I .reUnion .reglan (.sym .reNone) :=
  reglanModel I rfl rfl ⟨fun x y z => add_assoc x y z⟩
    { left_id := fun x => zero_add x, right_id := fun x => add_zero x } rfl fun _ => rfl

def reInterModel (I : Interp Γ) : ListModel I .reInter .reglan (.sym .reAll) :=
  reglanModel I rfl rfl ⟨fun x y z => Set.inter_assoc x y z⟩
    { left_id := fun x => Set.univ_inter x, right_id := fun x => Set.inter_univ x } rfl
    fun _ => rfl

def reConcatModel (I : Interp Γ) : ListModel I .reConcat .reglan (uop .strToRe (.str [])) :=
  reglanModel I rfl rfl ⟨fun x y z => mul_assoc x y z⟩
    { left_id := fun x => one_mul x, right_id := fun x => mul_one x } rfl fun _ => rfl

def bvorModel (I : Interp Γ) {w : Nat} (hnil : eoNil .bvor (.bitvec w) = some (.bin w 0#w)) :
    ListModel I .bvor (.bitvec w) (.bin w 0#w) :=
  bvModel I rfl rfl ⟨BitVec.or_assoc⟩
    { left_id := fun _ => BitVec.zero_or, right_id := fun _ => BitVec.or_zero } rfl rfl hnil

def bvxorModel (I : Interp Γ) {w : Nat} (hnil : eoNil .bvxor (.bitvec w) = some (.bin w 0#w)) :
    ListModel I .bvxor (.bitvec w) (.bin w 0#w) :=
  bvModel I rfl rfl ⟨BitVec.xor_assoc⟩
    { left_id := fun _ => BitVec.zero_xor, right_id := fun _ => BitVec.xor_zero } rfl rfl hnil

def bvandModel (I : Interp Γ) {w : Nat}
    (hnil : eoNil .bvand (.bitvec w) = some (.bin w (~~~ 0#w))) :
    ListModel I .bvand (.bitvec w) (.bin w (~~~ 0#w)) :=
  bvModel I rfl rfl ⟨BitVec.and_assoc⟩
    { left_id := fun x => by simp, right_id := fun x => by simp } rfl rfl hnil

/-- The operators whose applications are sorted. -/
def Sym.aciCommutative : Sym → Bool
  | .or | .and | .reUnion | .reInter | .bvor | .bvand | .bvxor => true
  | _ => false

/-- The operators whose repetitions are dropped. -/
def Sym.aciIdempotent : Sym → Bool
  | .or | .and | .reUnion | .reInter | .bvor | .bvand => true
  | _ => false

/-- The operators that the rule normalizes. -/
def Sym.aciAssociative : Sym → Bool
  | .strConcat | .reConcat | .concat => true
  | s => s.aciCommutative

/-- What the monoid of an operator has to satisfy. -/
def ListModel.Lawful {s : Sym} {T : Ty} {nil : Term} (L : ListModel I s T nil) : Prop :=
  (s.aciCommutative = true → Std.Commutative L.op) ∧
  (s.aciIdempotent = true → Std.IdempotentOp L.op)

private lemma bitwise_inv {s : Sym} {x y : Term} {T : Ty} (hs : s.arity = 2)
    (hsym : symTy s = tyBv2 .bitvec) (h : typeof Γ (bop s x y) = some T) :
    ∃ w, T = .bitvec w ∧ typeof Γ x = some (.bitvec w) := by
  obtain ⟨A, B, hA, _, h⟩ := typeof_bop_inv hs h
  rw [hsym] at h
  obtain ⟨_, _, w, heq, rfl⟩ := tyBv2_inv h
  cases heq
  exact ⟨w, rfl, hA⟩

private lemma reglan_inv {s : Sym} {x y : Term} {T : Ty} (hs : s.arity = 2)
    (hsym : symTy s = tyFn2 .reglan .reglan .reglan) (h : typeof Γ (bop s x y) = some T) :
    T = .reglan := by
  obtain ⟨A, B, _, _, h⟩ := typeof_bop_inv hs h
  rw [hsym] at h
  obtain ⟨_, _, -, rfl⟩ := tyFn2_inv h
  rfl

private lemma bool_inv {s : Sym} {x y : Term} {T : Ty} (hs : s.arity = 2)
    (hsym : symTy s = tyFn2 .bool .bool .bool) (h : typeof Γ (bop s x y) = some T) :
    T = .bool := by
  obtain ⟨A, B, _, _, h⟩ := typeof_bop_inv hs h
  rw [hsym] at h
  obtain ⟨_, _, -, rfl⟩ := tyFn2_inv h
  rfl

private lemma value_seqEmpty {T : Ty} {nil : Term} (h : seqEmpty (.seq T) = some nil) :
    value I nil = some (Val.seq T []) := by
  unfold seqEmpty at h
  split at h
  · rename_i heq
    cases heq
    cases h
    rfl
  · rename_i heq
    cases heq
    cases h
    rfl
  · cases h

/-- Every operator of the rule is a monoid with the laws its normal form uses. -/
lemma exists_listModel (I : Interp Γ) {s : Sym} (hs : s.aciAssociative = true) {x y nil : Term}
    {T : Ty} (hty : typeof Γ (bop s x y) = some T) (hnil : eoNil s T = some nil) :
    ∃ L : ListModel I s T nil, L.Lawful := by
  cases s with
  | or =>
    obtain rfl := bool_inv rfl rfl hty
    cases hnil
    exact ⟨orModel I, fun _ => ⟨Bool.or_comm⟩, fun _ => ⟨Bool.or_self⟩⟩
  | and =>
    obtain rfl := bool_inv rfl rfl hty
    cases hnil
    exact ⟨andModel I, fun _ => ⟨Bool.and_comm⟩, fun _ => ⟨Bool.and_self⟩⟩
  | reUnion =>
    obtain rfl := reglan_inv rfl rfl hty
    cases hnil
    exact ⟨reUnionModel I, fun _ => ⟨fun (x y : RegLan) => add_comm x y⟩,
      fun _ => ⟨fun x => Set.union_self x⟩⟩
  | reInter =>
    obtain rfl := reglan_inv rfl rfl hty
    cases hnil
    exact ⟨reInterModel I, fun _ => ⟨fun x y => Set.inter_comm x y⟩,
      fun _ => ⟨fun x => Set.inter_self x⟩⟩
  | bvor =>
    obtain ⟨w, rfl, -⟩ := bitwise_inv rfl rfl hty
    obtain rfl := width_toBin_inv hnil
    exact ⟨bvorModel I hnil, fun _ => ⟨BitVec.or_comm⟩, fun _ => ⟨fun x => BitVec.or_self⟩⟩
  | bvand =>
    obtain ⟨w, rfl, -⟩ := bitwise_inv rfl rfl hty
    obtain rfl := eoNil_bvand_inv hnil
    exact ⟨bvandModel I hnil, fun _ => ⟨BitVec.and_comm⟩, fun _ => ⟨fun x => BitVec.and_self⟩⟩
  | bvxor =>
    obtain ⟨w, rfl, -⟩ := bitwise_inv rfl rfl hty
    obtain rfl := width_toBin_inv hnil
    exact ⟨bvxorModel I hnil, fun _ => ⟨BitVec.xor_comm⟩, fun h => absurd h (by decide)⟩
  | strConcat =>
    obtain ⟨A, B, _, _, h⟩ := typeof_bop_inv rfl hty
    obtain ⟨_, _, S, -, rfl⟩ := tySeq2_inv h
    exact ⟨seqModel I (value_seqEmpty hnil) hnil, fun h => absurd h (by decide),
      fun h => absurd h (by decide)⟩
  | reConcat =>
    obtain rfl := reglan_inv rfl rfl hty
    cases hnil
    exact ⟨reConcatModel I, fun h => absurd h (by decide), fun h => absurd h (by decide)⟩
  | concat =>
    obtain ⟨A, B, _, _, h⟩ := typeof_bop_inv rfl hty
    obtain ⟨_, w, _, w', -, rfl⟩ := tyConcat_inv h
    cases hnil
    exact ⟨concatModel I (w + w'), fun h => absurd h (by decide),
      fun h => absurd h (by decide)⟩
  | _ => contradiction

/-! ## Soundness of `aci_norm` -/

/-- What a normal form stands for: its own value, or the value of the list
that the placeholder marks, of a commutative operator. -/
def NormValue (I : Interp Γ) (T : Ty) (n : Term) (x : Dom I.U T) : Prop :=
  value I n = some ⟨T, x⟩ ∨
  ∃ s t nil, n = aciSorted s t ∧ value I t = some ⟨T, x⟩ ∧
    ∃ L : ListModel I s T nil, Std.Commutative L.op

lemma value_aciSorted (f t : Term) : value I (bop .aciSorted f t) = none := by
  rw [value_bop I rfl]
  cases value I f <;> cases value I t <;> rfl

variable {t : Term}

lemma NormValue.of_value {T : Ty} {x y : Dom I.U T} (h : NormValue I T t x)
    (hy : value I t = some ⟨T, y⟩) : x = y := by
  rcases h with h | ⟨s, t', nil, rfl, -, -⟩
  · exact Val.mk_inj.1 (some.inj (h.symm.trans hy))
  · rw [aciSorted, value_aciSorted] at hy
    contradiction

lemma NormValue.of_sorted {T : Ty} {f : Term} {x : Dom I.U T}
    (h : NormValue I T (bop .aciSorted f t) x) : value I t = some ⟨T, x⟩ ∧
      ∃ s nil, f = .sym s ∧ ∃ L : ListModel I s T nil, Std.Commutative L.op := by
  rcases h with h | ⟨s, t', nil, heq, ht, L⟩
  · rw [value_aciSorted] at h
    contradiction
  · cases heq
    exact ⟨ht, s, nil, rfl, L⟩

lemma NormValue.unique {T : Ty} {x y : Dom I.U T} (hx : NormValue I T t x)
    (hy : NormValue I T t y) : x = y := by
  rcases hy with hy | ⟨s, t', nil, rfl, ht, -⟩
  · exact hx.of_value hy
  · exact Val.mk_inj.1 (some.inj (hx.of_sorted.1.symm.trans ht))

lemma eq_of_aciNormEq {T : Ty} {s : Term} {x y : Dom I.U T} (ht : NormValue I T t x)
    (hs : NormValue I T s y) (h : aciNormEq Γ t s = some true) : x = y := by
  unfold aciNormEq at h
  split at h
  · rename_i hts
    rw [hts] at ht
    exact ht.unique hs
  split at h
  swap
  · cases h
  rename_i f t'
  obtain ⟨hval, f, nil, rfl, L, hcomm⟩ := ht.of_sorted
  split at h
  · rename_i hts
    rw [hts] at hval
    exact (hs.of_value hval).symm
  unfold aciSortedEq at h
  split at h
  swap
  · cases h
  rename_i g s'
  split at h
  swap
  · cases h
  rename_i hg
  obtain ⟨hval', _⟩ := hs.of_sorted
  obtain ⟨r, hr, htrue⟩ := map_inv h
  rw [decide_eq_true_eq] at htrue
  rw [htrue] at hr
  obtain ⟨m, hm⟩ := L.emb_of_type x
  obtain ⟨n, hn⟩ := L.emb_of_type y
  rw [hm] at hval
  rw [hn] at hval'
  have hmn : m = n := ListModel.read_listMeq hcomm (ListModel.read_eq_some.2 hval)
    (ListModel.read_eq_some.2 hval') hr
  rw [hmn, ← hn] at hm
  exact Val.mk_inj.1 hm

section NormalForm

variable {s : Sym} {x y n : Term} {T : Ty} {v : Dom I.U T}

/-- The monoid of an operator at an application of it whose nil terminator is
known. -/
lemma listModel_of_nilAt (hs : s.aciAssociative = true) {nil : Term}
    (hty : typeof Γ (bop s x y) = some T) (hnil : nilAt Γ s (bop s x y) = some nil) :
    ∃ L : ListModel I s T nil, L.Lawful := by
  rw [nilAt, hty, bind_some] at hnil
  exact exists_listModel I hs hty hnil

lemma value_getANorm (hs : s.aciAssociative = true) (hty : typeof Γ (bop s x y) = some T)
    (hv : value I (bop s x y) = some ⟨T, v⟩) (h : getANorm Γ s (bop s x y) = some n) :
    value I n = some ⟨T, v⟩ := by
  have h' := h
  obtain ⟨nil, hnil, _⟩ := bind_inv h'
  obtain ⟨L, _⟩ := listModel_of_nilAt (I := I) hs hty hnil
  obtain ⟨m, hm⟩ := L.emb_of_type v
  rw [hm] at hv ⊢
  exact ListModel.read_eq_some.1 (ListModel.read_getANorm (ListModel.read_eq_some.2 hv) hnil h)

lemma normValue_getANorm (hs : s.aciAssociative = true) (hc : s.aciCommutative = true)
    (hty : typeof Γ (bop s x y) = some T) (hv : value I (bop s x y) = some ⟨T, v⟩)
    (h : (getANorm Γ s (bop s x y)).map (aciSorted s) = some n) : NormValue I T n v := by
  obtain ⟨r, hr, rfl⟩ := map_inv h
  have hval := value_getANorm hs hty hv hr
  obtain ⟨nil, hnil, _⟩ := bind_inv hr
  obtain ⟨L, hL⟩ := listModel_of_nilAt (I := I) hs hty hnil
  exact .inr ⟨s, r, nil, rfl, hval, L, hL.1 hc⟩

lemma normValue_getAiNorm (hs : s.aciAssociative = true) (hc : s.aciCommutative = true)
    (hi : s.aciIdempotent = true) (hty : typeof Γ (bop s x y) = some T)
    (hv : value I (bop s x y) = some ⟨T, v⟩)
    (h : (getAiNorm Γ s (bop s x y)).map (aciSorted s) = some n) : NormValue I T n v := by
  obtain ⟨r, hr, rfl⟩ := map_inv h
  have hr' := hr
  obtain ⟨nil, hnil, _⟩ := bind_inv hr'
  obtain ⟨L, hL⟩ := listModel_of_nilAt (I := I) hs hty hnil
  obtain ⟨m, hm⟩ := L.emb_of_type v
  refine .inr ⟨s, r, nil, rfl, ?_, L, hL.1 hc⟩
  rw [hm] at hv ⊢
  exact ListModel.read_eq_some.1
    (ListModel.read_getAiNorm (hL.1 hc) (hL.2 hi) (ListModel.read_eq_some.2 hv) hnil hr)

end NormalForm

lemma normValue_getAciNormalForm {a n : Term} {T : Ty} {v : Dom I.U T}
    (hty : typeof Γ a = some T) (hv : value I a = some ⟨T, v⟩)
    (h : getAciNormalForm Γ a = some n) : NormValue I T n v := by
  unfold getAciNormalForm at h
  split at h
  · exact normValue_getAiNorm rfl rfl rfl hty hv h
  · exact normValue_getAiNorm rfl rfl rfl hty hv h
  · exact normValue_getAiNorm rfl rfl rfl hty hv h
  · exact normValue_getAiNorm rfl rfl rfl hty hv h
  · exact normValue_getAiNorm rfl rfl rfl hty hv h
  · exact normValue_getAiNorm rfl rfl rfl hty hv h
  · exact normValue_getANorm rfl rfl hty hv h
  · exact .inl (value_getANorm rfl hty hv h)
  · exact .inl (value_getANorm rfl hty hv h)
  · exact .inl (value_getANorm rfl hty hv h)
  · cases h
    exact .inl hv

lemma values_of_eq {a b : Term} {S : Ty} (hty : typeof Γ (bop .eq a b) = some S) :
    ∃ T, typeof Γ a = some T ∧ typeof Γ b = some T ∧
      ∃ x y : Dom I.U T, value I a = some ⟨T, x⟩ ∧ value I b = some ⟨T, y⟩ := by
  obtain ⟨A, B, hA, hB, h⟩ := typeof_bop_inv rfl hty
  obtain ⟨_, _, T, heq, _⟩ := tyEq_inv (show tyEq [(a, A), (b, B)] = some S from h)
  cases heq
  obtain ⟨x, hx⟩ := value_of_typeof I hA
  obtain ⟨y, hy⟩ := value_of_typeof I hB
  exact ⟨A, hA, hB, x, y, hx, hy⟩

lemma eq_of_isAciNorm {T : Ty} {a b an bn : Term} {x y : Dom I.U T}
    (ha : value I a = some ⟨T, x⟩) (hb : value I b = some ⟨T, y⟩) (han : NormValue I T an x)
    (hbn : NormValue I T bn y) (h : isAciNorm Γ a b an bn = some true) : x = y := by
  obtain ⟨first, hfirst, h⟩ := bind_inv h
  cases first with
  | true => exact eq_of_aciNormEq han (.inl hb) hfirst
  | false =>
    rw [if_neg Bool.false_ne_true] at h
    obtain ⟨second, hsecond, h⟩ := bind_inv h
    cases second with
    | true => exact (eq_of_aciNormEq hbn (.inl ha) hsecond).symm
    | false => exact eq_of_aciNormEq han hbn h

variable {G zero : Term}

/-- Rule `aci_norm`, inverted. -/
lemma aciNorm_inv {a b : Term} (h : aciNorm Γ (bop .eq a b) = some G) :
    G = bop .eq a b ∧ ∃ an bn, getAciNormalForm Γ a = some an ∧ getAciNormalForm Γ b = some bn ∧
      isAciNorm Γ a b an bn = some true := by
  obtain ⟨an, han, h⟩ := bind_inv h
  obtain ⟨bn, hbn, h⟩ := bind_inv h
  obtain ⟨hnorm, hG⟩ := eoRequires_eq_some.1 h
  exact ⟨(some.inj hG).symm, an, bn, han, hbn, of_decide_eq_true hnorm⟩

/-- Rule `aci_norm` proves true equalities only. -/
lemma sat_of_aciNorm {a b : Term} (hty : typeof Γ (bop .eq a b) = some .bool)
    (h : aciNorm Γ (bop .eq a b) = some G) : Sat I (bop .eq a b) := by
  obtain ⟨_, an, bn, han, hbn, hnorm⟩ := aciNorm_inv h
  obtain ⟨T, hta, htb, x, y, hx, hy⟩ := values_of_eq (I := I) hty
  have hxy : x = y := eq_of_isAciNorm hx hy (normValue_getAciNormalForm hta hx han)
    (normValue_getAciNormalForm htb hy hbn) hnorm
  rw [← hxy] at hy
  exact sat_eq.2 ⟨_, hx, hy⟩

/-! ## Soundness of `absorb` -/

/-- A term that stands for an absorbing element. -/
def ListModel.Absorbing {s : Sym} {T : Ty} {nil : Term} (L : ListModel I s T nil)
    (zero : Term) : Prop :=
  ∃ z, L.read zero = some z ∧ (∀ m, L.op z m = z) ∧ ∀ m, L.op m z = z

/-- A width that a literal may have gives the nil terminators of that width. -/
private lemma eoNil_of_eoToBin {w : Nat} {n : Int} {r : Term} (h : eoToBin w n = some r) :
    eoNil .bvor (.bitvec w) = some (.bin w 0#w) ∧
    eoNil .bvand (.bitvec w) = some (.bin w (~~~ 0#w)) := by
  obtain ⟨hw, hw', _⟩ := eoToBin_inv h
  have hz : eoToBin w 0 = some (.bin w 0#w) := by
    rw [eoToBin, if_pos ⟨hw, hw'⟩, Int.toNat_natCast]
    rfl
  constructor
  · rw [eoNil, Ty.width, bind_some, hz]
  · rw [eoNil, Ty.width, bind_some, hz]
    rfl

lemma absorbing_getZero {s : Sym} {x y : Term} {T : Ty}
    (hty : typeof Γ (bop s x y) = some T) (h : getZero Γ (bop s x y) = some zero) :
    ∃ nil, ∃ L : ListModel I s T nil, L.Absorbing zero := by
  cases s with
  | or =>
    obtain rfl := bool_inv rfl rfl hty
    cases h
    exact ⟨_, orModel I, true, ListModel.read_eq_some.2 rfl, Bool.true_or, Bool.or_true⟩
  | and =>
    obtain rfl := bool_inv rfl rfl hty
    cases h
    exact ⟨_, andModel I, false, ListModel.read_eq_some.2 rfl, Bool.false_and, Bool.and_false⟩
  | reUnion =>
    obtain rfl := reglan_inv rfl rfl hty
    cases h
    exact ⟨_, reUnionModel I, Set.univ, ListModel.read_eq_some.2 rfl,
      fun m => Set.univ_union m, fun m => Set.union_univ m⟩
  | reInter =>
    obtain rfl := reglan_inv rfl rfl hty
    cases h
    exact ⟨_, reInterModel I, (∅ : Set Str), ListModel.read_eq_some.2 rfl,
      fun m => Set.empty_inter m, fun m => Set.inter_empty m⟩
  | reConcat =>
    obtain rfl := reglan_inv rfl rfl hty
    cases h
    exact ⟨_, reConcatModel I, (0 : RegLan), ListModel.read_eq_some.2 rfl,
      fun (m : RegLan) => zero_mul m, fun (m : RegLan) => mul_zero m⟩
  | bvor =>
    obtain ⟨w, rfl, hx⟩ := bitwise_inv rfl rfl hty
    rw [getZero, bvBitwidth, hx, bind_some, Ty.width, bind_some] at h
    have hval : value I zero = some (Val.bitvec (BitVec.allOnes w)) := by rw [bvOnes_inv h]; rfl
    exact ⟨_, bvorModel I (eoNil_of_eoToBin h).1, BitVec.allOnes w,
      ListModel.read_eq_some.2 hval, fun _ => BitVec.allOnes_or, fun _ => BitVec.or_allOnes⟩
  | bvand =>
    obtain ⟨w, rfl, hx⟩ := bitwise_inv rfl rfl hty
    rw [getZero, bvBitwidth, hx, bind_some, Ty.width, bind_some] at h
    have hval : value I zero = some (Val.bitvec 0#w) := by rw [eoToBin_zero_inv h]; rfl
    exact ⟨_, bvandModel I (eoNil_of_eoToBin h).2, 0#w,
      ListModel.read_eq_some.2 hval, fun _ => BitVec.zero_and, fun _ => BitVec.and_zero⟩
  | _ => contradiction

/-- Rule `absorb`, inverted.  Only applications of declared symbols have a
zero. -/
lemma absorb_inv (h : absorb Γ (bop .eq t zero) = some G) :
    G = bop .eq t zero ∧ getZero Γ t = some zero ∧
      ∃ s t1 t2, t = bop s t1 t2 ∧ isAbsorbRec (.sym s) zero t = true := by
  obtain ⟨hzero, h⟩ := eoRequires_eq_some.1 h
  obtain ⟨habs, hG⟩ := eoRequires_eq_some.1 h
  have hzero := of_decide_eq_true hzero
  have habs := of_decide_eq_true habs
  refine ⟨(some.inj hG).symm, hzero, ?_⟩
  unfold getZero at hzero
  split at hzero
  all_goals first | exact ⟨_, _, _, rfl, some.inj habs⟩ | contradiction

/-- Rule `absorb` proves true equalities only. -/
lemma sat_of_absorb (hty : typeof Γ (bop .eq t zero) = some .bool)
    (h : absorb Γ (bop .eq t zero) = some G) : Sat I (bop .eq t zero) := by
  obtain ⟨-, hzero, s, t1, t2, rfl, habs⟩ := absorb_inv h
  obtain ⟨T, htt, _, x, y, hx, _⟩ := values_of_eq (I := I) hty
  obtain ⟨nil, L, z, hz, hleft, hright⟩ := absorbing_getZero (I := I) htt hzero
  obtain ⟨m, hm⟩ := L.exists_read htt
  have hmz : m = z := ListModel.read_isAbsorbRec hz hleft hright hm habs
  rw [hmz] at hm
  exact sat_eq.2 ⟨_, hx, (ListModel.value_eq_of_read hm hz).symm.trans hx⟩

/-! ## Both rules -/

/-- An equality that `aci_norm` or `absorb` concludes is the one it was asked
for, and its two sides have one value in every interpretation.  Well-typed
terms do not contain the placeholder. -/
theorem aciNorm_absorb_sound (Γ : Nat → Ty) (a b G : Term)
    (hty : typeof Γ (bop .eq a b) = some .bool)
    (h : aciNorm Γ (bop .eq a b) = some G ∨ absorb Γ (bop .eq a b) = some G) :
    G = bop .eq a b ∧ ∀ I : Interp Γ, Sat I (bop .eq a b) ∧ value I a = value I b := by
  constructor
  · rcases h with h | h
    · exact (aciNorm_inv h).1
    · exact (absorb_inv h).1
  intro I
  have hsat : Sat I (bop .eq a b) := by
    rcases h with h | h
    · exact sat_of_aciNorm hty h
    · exact sat_of_absorb hty h
  obtain ⟨v, ha, hb⟩ := sat_eq.1 hsat
  exact ⟨hsat, ha.trans hb.symm⟩

/-- Nested disjunctions with a repetition, and an absorbed conjunction. -/
theorem aciNorm_absorb_sound_booleans : (∀ I : Interp fun _ => .bool, Sat I (bop .eq
      (bop .or (bop .or (.const 0) (bop .or (.const 1) (.bool false))) (bop .or (.const 0)
        (.bool false))) (bop .or (.const 1) (bop .or (.const 0) (.bool false))))) ∧
    ∀ I : Interp fun _ => .bool, Sat I (bop .eq
      (bop .and (.const 0) (bop .and (bop .and (.bool false) (.const 1)) (.bool true)))
      (.bool false)) :=
  ⟨fun I => ((aciNorm_absorb_sound _ _ _ _ (by decide) (.inl rfl)).2 I).1,
   fun I => ((aciNorm_absorb_sound _ _ _ _ (by decide) (.inr rfl)).2 I).1⟩

end EthosCpc
