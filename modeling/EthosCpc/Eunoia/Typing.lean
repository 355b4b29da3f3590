import EthosCpc.Eunoia.Term
import EthosCpc.Library.Inversion

/-!
# Types of terms

`eo::typeof` as the programs of the signature use it.  A declared symbol
takes its arguments one at a time, and the result type of most symbols is
only known once all implicit parameters are: `(concat a)` has no ground
type, and `(extract h l)` computes the width of its result from its two
indices.  The typing function therefore keeps a partially applied symbol
together with the arguments it has seen (`TyDen.part`) and consults the
declaration, `symTy`, when the last argument arrives.

Index arguments (`extract`, `repeat`, the extensions, `@bv`, `int_to_bv`)
must be numerals: the declared result type computes with them, and a type
that does not evaluate is rejected by `TypeChecker::getType`.
-/

namespace EthosCpc

open Option (some.inj)

/-- Number of arguments a symbol takes. -/
def Sym.arity : Sym → Nat
  | .listNil | .reNone | .reAll | .reAllchar | .seqEmpty _ => 0
  | .not | .toReal | .toInt | .isInt | .abs | .uminus
  | .intPow2 | .intLog2 | .intIspow2 | .bvsize | .bvnot | .bvneg
  | .ubvToInt | .sbvToInt | .strToRe | .strLen | .strRev | .seqUnit
  | .strToLower | .strToUpper | .strToCode | .strFromCode | .strIsDigit | .strToInt
  | .strFromInt | .reStar | .rePlus | .reOpt | .reComp | .purify => 1
  | .ite | .extract | .bvite | .strSubstr | .strReplace | .strReplaceAll | .strIndexof
  | .strUpdate | .strReplaceRe | .strReplaceReAll | .strIndexofRe | .reLoop => 3
  | _ => 2

/-! ## Shapes of declarations

Most declarations have one of a few shapes.  Each shape is one function of
the list of arguments seen so far, paired with their types.
-/

/-- `(-> A B)`. -/
def tyFn1 (A B : Ty) : List (Term × Ty) → Option Ty
  | [(_, T)] => if T = A then some B else none
  | _ => none

/-- `(-> A B C)`. -/
def tyFn2 (A B C : Ty) : List (Term × Ty) → Option Ty
  | [(_, T), (_, T')] => if T = A ∧ T' = B then some C else none
  | _ => none

/-- `(-> T (eo::requires ($is_arith_type T) true R))` where `R` may be `T`. -/
def tyArith1 (R : Ty → Ty) : List (Term × Ty) → Option Ty
  | [(_, .int)] => some (R .int)
  | [(_, .real)] => some (R .real)
  | _ => none

/-- `(-> T T (eo::requires ($is_arith_type T) true R))`. -/
def tyArith2 (R : Ty → Ty) : List (Term × Ty) → Option Ty
  | [(_, .int), (_, .int)] => some (R .int)
  | [(_, .real), (_, .real)] => some (R .real)
  | _ => none

/-- `(-> (BitVec m) R)`. -/
def tyBv1 (R : Nat → Ty) : List (Term × Ty) → Option Ty
  | [(_, .bitvec w)] => some (R w)
  | _ => none

/-- `(-> (BitVec m) (BitVec m) R)`. -/
def tyBv2 (R : Nat → Ty) : List (Term × Ty) → Option Ty
  | [(_, .bitvec w), (_, .bitvec w')] => if w' = w then some (R w) else none
  | _ => none

/-- An operator indexed by a non-negative numeral, applied to a bit-vector. -/
def tyBvIdx (R : Nat → Nat → Ty) : List (Term × Ty) → Option Ty
  | [(.num i, _), (_, .bitvec w)] => if 0 ≤ i then some (R i.toNat w) else none
  | _ => none

/-- `(-> A A Bool)`. -/
def tyEq : List (Term × Ty) → Option Ty
  | [(_, T), (_, T')] => if T' = T then some .bool else none
  | _ => none

/-- `(-> Bool A A A)`. -/
def tyIte : List (Term × Ty) → Option Ty
  | [(_, .bool), (_, T), (_, T')] => if T' = T then some T else none
  | _ => none

/-- `(-> (Seq T) (Seq T) (Seq T))`. -/
def tySeq2 : List (Term × Ty) → Option Ty
  | [(_, .seq T), (_, .seq T')] => if T' = T then some (.seq T) else none
  | _ => none

/-- `(-> (BitVec n) (BitVec m) (BitVec (eo::add n m)))`. -/
def tyConcat : List (Term × Ty) → Option Ty
  | [(_, .bitvec w), (_, .bitvec w')] => some (.bitvec (w + w'))
  | _ => none

/-- `extract` with its two range checks `0 ≤ l` and `h < n`, where the width
`h - l + 1` it computes is not negative. -/
def tyExtract : List (Term × Ty) → Option Ty
  | [(.num h, _), (.num l, _), (_, .bitvec w)] =>
    if 0 ≤ l ∧ l ≤ h + 1 ∧ h < w then some (.bitvec (h - l + 1).toNat) else none
  | _ => none

/-- `@bv`: an integer value and a numeral width. -/
def tyBvLit : List (Term × Ty) → Option Ty
  | [(_, .int), (.num w, _)] => if 0 ≤ w then some (.bitvec w.toNat) else none
  | _ => none

/-- `int_to_bv`: a numeral width and an integer. -/
def tyIntToBv : List (Term × Ty) → Option Ty
  | [(.num w, _), (_, .int)] => if 0 ≤ w then some (.bitvec w.toNat) else none
  | _ => none

/-- `bvite`: `(-> (BitVec 1) T T T)`. -/
def tyBvite : List (Term × Ty) → Option Ty
  | [(_, .bitvec 1), (_, T), (_, T')] => if T' = T then some T else none
  | _ => none

/-- `@bit`: `(-> Int (BitVec m) Bool)`. -/
def tyBit : List (Term × Ty) → Option Ty
  | [(_, .int), (_, .bitvec _)] => some .bool
  | _ => none

/-- `@from_bools`: `(-> Bool (BitVec n) (BitVec (eo::add 1 n)))`. -/
def tyFromBools : List (Term × Ty) → Option Ty
  | [(_, .bool), (_, .bitvec w)] => some (.bitvec (w + 1))
  | _ => none

/-- `(-> A B C D)`. -/
def tyFn3 (A B C D : Ty) : List (Term × Ty) → Option Ty
  | [(_, T), (_, T'), (_, T'')] => if T = A ∧ T' = B ∧ T'' = C then some D else none
  | _ => none

/-- `(-> (Seq T) R)`, where `R` may mention `T`. -/
def tySeq1 (R : Ty → Ty) : List (Term × Ty) → Option Ty
  | [(_, .seq T)] => some (R T)
  | _ => none

/-- `(-> (Seq T) (Seq T) Bool)`. -/
def tySeqRel : List (Term × Ty) → Option Ty
  | [(_, .seq T), (_, .seq T')] => if T' = T then some .bool else none
  | _ => none

/-- `(-> (Seq T) Int (Seq T))`. -/
def tySeqAt : List (Term × Ty) → Option Ty
  | [(_, .seq T), (_, .int)] => some (.seq T)
  | _ => none

/-- `(-> (Seq T) Int Int (Seq T))`. -/
def tySubstr : List (Term × Ty) → Option Ty
  | [(_, .seq T), (_, .int), (_, .int)] => some (.seq T)
  | _ => none

/-- `(-> (Seq T) (Seq T) (Seq T) (Seq T))`. -/
def tySeq3 : List (Term × Ty) → Option Ty
  | [(_, .seq T), (_, .seq T'), (_, .seq T'')] =>
    if T' = T ∧ T'' = T then some (.seq T) else none
  | _ => none

/-- `(-> (Seq T) (Seq T) Int Int)`. -/
def tyIndexof : List (Term × Ty) → Option Ty
  | [(_, .seq T), (_, .seq T'), (_, .int)] => if T' = T then some .int else none
  | _ => none

/-- `(-> (Seq T) Int (Seq T) (Seq T))`. -/
def tyUpdate : List (Term × Ty) → Option Ty
  | [(_, .seq T), (_, .int), (_, .seq T')] => if T' = T then some (.seq T) else none
  | _ => none

def Ty.isFn : Ty → Bool
  | .fn _ _ => true
  | _ => false

/-- `(-> (Seq T) Int T)`, for element types that are not function types. -/
def tyNth : List (Term × Ty) → Option Ty
  | [(_, .seq T), (_, .int)] => if T.isFn then none else some T
  | _ => none

/-- `(-> T R)`, for argument types that are not function types. -/
def tyAny1 (R : Ty → Ty) : List (Term × Ty) → Option Ty
  | [(_, T)] => if T.isFn then none else some (R T)
  | _ => none

/-- A symbol that is a constant of type `T`. -/
def tyConst (T : Ty) : List (Term × Ty) → Option Ty
  | [] => some T
  | _ => none

/-- The declared type of every symbol, as a function of all its arguments.
The data constructors that only the programs use (`@list`,
`@@aci_sorted`) never occur in a formula and have no type here. -/
def symTy (s : Sym) : List (Term × Ty) → Option Ty :=
  match s with
  | .ite => tyIte
  | .not => tyFn1 .bool .bool
  | .or | .and | .imp | .xor => tyFn2 .bool .bool .bool
  | .eq => tyEq
  | .listNil | .listCons | .aciSorted => fun _ => none
  | .plus | .minus | .times => tyArith2 id
  | .lt | .leq | .gt | .geq => tyArith2 fun _ => .bool
  | .toReal => tyArith1 fun _ => .real
  | .toInt => tyFn1 .real .int
  | .isInt => tyFn1 .real .bool
  | .abs | .uminus => tyArith1 id
  | .div | .mod | .divTotal | .modTotal => tyFn2 .int .int .int
  | .divisible => tyFn2 .int .int .bool
  | .intPow2 | .intLog2 => tyFn1 .int .int
  | .intIspow2 => tyFn1 .int .bool
  | .qdiv | .qdivTotal => tyArith2 fun _ => .real
  | .bvsize => tyBv1 fun _ => .int
  | .concat => tyConcat
  | .extract => tyExtract
  | .bvrepeat => tyBvIdx fun i w => .bitvec (w * i)
  | .bvnot | .bvneg => tyBv1 .bitvec
  | .bvand | .bvor | .bvxor | .bvadd | .bvmul | .bvudiv | .bvurem | .bvsub
  | .bvshl | .bvlshr | .bvashr | .bvxnor => tyBv2 .bitvec
  | .bvult | .bvule | .bvugt | .bvuge | .bvslt | .bvsle | .bvsgt | .bvsge
  | .bvumulo | .bvsmulo => tyBv2 fun _ => .bool
  | .bvcomp | .bvultbv | .bvsltbv => tyBv2 fun _ => .bitvec 1
  | .bvite => tyBvite
  | .bit => tyBit
  | .fromBools => tyFromBools
  | .zeroExtend | .signExtend => tyBvIdx fun i w => .bitvec (w + i)
  | .bv => tyBvLit
  | .intToBv => tyIntToBv
  | .ubvToInt | .sbvToInt => tyBv1 fun _ => .int
  | .seqEmpty T => tyConst (.seq T)
  | .strConcat => tySeq2
  | .strToRe => tyFn1 (.seq .char) .reglan
  | .reNone | .reAll | .reAllchar => tyConst .reglan
  | .reConcat | .reInter | .reUnion | .reDiff => tyFn2 .reglan .reglan .reglan
  | .strLen => tySeq1 fun _ => .int
  | .strRev => tySeq1 .seq
  | .strSubstr => tySubstr
  | .strAt => tySeqAt
  | .strContains | .strPrefixof | .strSuffixof => tySeqRel
  | .strReplace | .strReplaceAll => tySeq3
  | .strIndexof => tyIndexof
  | .strUpdate => tyUpdate
  | .seqUnit => tyAny1 .seq
  | .seqNth => tyNth
  | .purify => tyAny1 id
  | .strToLower | .strToUpper => tyFn1 (.seq .char) (.seq .char)
  | .strToCode | .strToInt => tyFn1 (.seq .char) .int
  | .strFromCode | .strFromInt => tyFn1 .int (.seq .char)
  | .strIsDigit => tyFn1 (.seq .char) .bool
  | .strLt | .strLe => tyFn2 (.seq .char) (.seq .char) .bool
  | .strInRe => tyFn2 (.seq .char) .reglan .bool
  | .strReplaceRe | .strReplaceReAll =>
    tyFn3 (.seq .char) .reglan (.seq .char) (.seq .char)
  | .strIndexofRe => tyFn3 (.seq .char) .reglan .int .int
  | .reStar | .rePlus | .reOpt | .reComp => tyFn1 .reglan .reglan
  | .rePow => tyFn2 .int .reglan .reglan
  | .reRange => tyFn2 (.seq .char) (.seq .char) .reglan
  | .reLoop => tyFn3 .int .int .reglan .reglan

/-! ## Inversion of the shapes -/

section Inversion

variable {args : List (Term × Ty)} {S : Ty}

lemma tyFn1_inv {A B : Ty} (h : tyFn1 A B args = some S) : ∃ t, args = [(t, A)] ∧ S = B := by
  unfold tyFn1 at h
  split at h
  swap
  · cases h
  rename_i t T
  split at h
  · rename_i hT
    exact ⟨t, by rw [hT], (some.inj h).symm⟩
  · cases h

lemma tyFn2_inv {A B C : Ty} (h : tyFn2 A B C args = some S) :
    ∃ t t', args = [(t, A), (t', B)] ∧ S = C := by
  unfold tyFn2 at h
  split at h
  swap
  · cases h
  rename_i t T t' T'
  split at h
  · rename_i hT
    exact ⟨t, t', by rw [hT.1, hT.2], (some.inj h).symm⟩
  · cases h

variable {R : Ty → Ty}

lemma tyArith1_inv (h : tyArith1 R args = some S) :
    ∃ t T, args = [(t, T)] ∧ (T = .int ∨ T = .real) ∧ S = R T := by
  unfold tyArith1 at h
  split at h
  · rename_i t
    exact ⟨t, _, rfl, .inl rfl, (some.inj h).symm⟩
  · rename_i t
    exact ⟨t, _, rfl, .inr rfl, (some.inj h).symm⟩
  · cases h

lemma tyArith2_inv (h : tyArith2 R args = some S) :
    ∃ t t' T, args = [(t, T), (t', T)] ∧ (T = .int ∨ T = .real) ∧ S = R T := by
  unfold tyArith2 at h
  split at h
  · rename_i t t'
    exact ⟨t, t', _, rfl, .inl rfl, (some.inj h).symm⟩
  · rename_i t t'
    exact ⟨t, t', _, rfl, .inr rfl, (some.inj h).symm⟩
  · cases h

lemma tyBv1_inv {R : Nat → Ty} (h : tyBv1 R args = some S) :
    ∃ t w, args = [(t, .bitvec w)] ∧ S = R w := by
  unfold tyBv1 at h
  split at h
  · rename_i t w
    exact ⟨t, w, rfl, (some.inj h).symm⟩
  · cases h

lemma tyBv2_inv {R : Nat → Ty} (h : tyBv2 R args = some S) :
    ∃ t t' w, args = [(t, .bitvec w), (t', .bitvec w)] ∧ S = R w := by
  unfold tyBv2 at h
  split at h
  swap
  · cases h
  rename_i t w t' w'
  split at h
  · rename_i hw
    exact ⟨t, t', w, by rw [hw], (some.inj h).symm⟩
  · cases h

lemma tyBvIdx_inv {R : Nat → Nat → Ty} (h : tyBvIdx R args = some S) :
    ∃ i T t w, args = [(.num i, T), (t, .bitvec w)] ∧ 0 ≤ i ∧ S = R i.toNat w := by
  unfold tyBvIdx at h
  split at h
  swap
  · cases h
  rename_i i T t w
  split at h
  · rename_i hi
    exact ⟨i, T, t, w, rfl, hi, (some.inj h).symm⟩
  · cases h

lemma tyEq_inv (h : tyEq args = some S) : ∃ t t' T, args = [(t, T), (t', T)] ∧ S = .bool := by
  unfold tyEq at h
  split at h
  swap
  · cases h
  rename_i t T t' T'
  split at h
  · rename_i hT
    exact ⟨t, t', T, by rw [hT], (some.inj h).symm⟩
  · cases h

lemma tyIte_inv (h : tyIte args = some S) : ∃ c t t', args = [(c, .bool), (t, S), (t', S)] := by
  unfold tyIte at h
  split at h
  swap
  · cases h
  rename_i c t T t' T'
  split at h
  · rename_i hT
    cases h
    exact ⟨c, t, t', by rw [hT]⟩
  · cases h

lemma tySeq2_inv (h : tySeq2 args = some S) :
    ∃ t t' T, args = [(t, .seq T), (t', .seq T)] ∧ S = .seq T := by
  unfold tySeq2 at h
  split at h
  swap
  · cases h
  rename_i t T t' T'
  split at h
  · rename_i hT
    exact ⟨t, t', T, by rw [hT], (some.inj h).symm⟩
  · cases h

lemma tyConcat_inv (h : tyConcat args = some S) :
    ∃ t w t' w', args = [(t, .bitvec w), (t', .bitvec w')] ∧ S = .bitvec (w + w') := by
  unfold tyConcat at h
  split at h
  · rename_i t w t' w'
    exact ⟨t, w, t', w', rfl, (some.inj h).symm⟩
  · cases h

lemma tyExtract_inv (h : tyExtract args = some S) :
    ∃ hi Th lo Tl t w, args = [(.num hi, Th), (.num lo, Tl), (t, .bitvec w)] ∧
      0 ≤ lo ∧ lo ≤ hi + 1 ∧ hi < w ∧ S = .bitvec (hi - lo + 1).toNat := by
  unfold tyExtract at h
  split at h
  swap
  · cases h
  rename_i hi Th lo Tl t w
  split at h
  · rename_i hr
    exact ⟨hi, Th, lo, Tl, t, w, rfl, hr.1, hr.2.1, hr.2.2, (some.inj h).symm⟩
  · cases h

lemma tyBvLit_inv (h : tyBvLit args = some S) :
    ∃ t w T, args = [(t, .int), (.num w, T)] ∧ 0 ≤ w ∧ S = .bitvec w.toNat := by
  unfold tyBvLit at h
  split at h
  swap
  · cases h
  rename_i t w T
  split at h
  · rename_i hw
    exact ⟨t, w, T, rfl, hw, (some.inj h).symm⟩
  · cases h

lemma tyIntToBv_inv (h : tyIntToBv args = some S) :
    ∃ w T t, args = [(.num w, T), (t, .int)] ∧ 0 ≤ w ∧ S = .bitvec w.toNat := by
  unfold tyIntToBv at h
  split at h
  swap
  · cases h
  rename_i w T t
  split at h
  · rename_i hw
    exact ⟨w, T, t, rfl, hw, (some.inj h).symm⟩
  · cases h

lemma tyBvite_inv (h : tyBvite args = some S) :
    ∃ c t t', args = [(c, .bitvec 1), (t, S), (t', S)] := by
  unfold tyBvite at h
  split at h
  swap
  · cases h
  rename_i c t T t' T'
  split at h
  · rename_i hT
    cases h
    exact ⟨c, t, t', by rw [hT]⟩
  · cases h

lemma tyBit_inv (h : tyBit args = some S) :
    ∃ i t w, args = [(i, .int), (t, .bitvec w)] ∧ S = .bool := by
  unfold tyBit at h
  split at h
  · rename_i i t w
    exact ⟨i, t, w, rfl, (some.inj h).symm⟩
  · cases h

lemma tyFromBools_inv (h : tyFromBools args = some S) :
    ∃ b t w, args = [(b, .bool), (t, .bitvec w)] ∧ S = .bitvec (w + 1) := by
  unfold tyFromBools at h
  split at h
  · rename_i b t w
    exact ⟨b, t, w, rfl, (some.inj h).symm⟩
  · cases h

lemma tyFn3_inv {A B C D : Ty} (h : tyFn3 A B C D args = some S) :
    ∃ t t' t'', args = [(t, A), (t', B), (t'', C)] ∧ S = D := by
  unfold tyFn3 at h
  split at h
  swap
  · cases h
  rename_i t T t' T' t'' T''
  split at h
  · rename_i hT
    exact ⟨t, t', t'', by rw [hT.1, hT.2.1, hT.2.2], (some.inj h).symm⟩
  · cases h

lemma tySeq1_inv (h : tySeq1 R args = some S) : ∃ t T, args = [(t, .seq T)] ∧ S = R T := by
  unfold tySeq1 at h
  split at h
  · rename_i t T
    exact ⟨t, T, rfl, (some.inj h).symm⟩
  · cases h

lemma tySeqRel_inv (h : tySeqRel args = some S) :
    ∃ t t' T, args = [(t, .seq T), (t', .seq T)] ∧ S = .bool := by
  unfold tySeqRel at h
  split at h
  swap
  · cases h
  rename_i t T t' T'
  split at h
  · rename_i hT
    exact ⟨t, t', T, by rw [hT], (some.inj h).symm⟩
  · cases h

lemma tySeqAt_inv (h : tySeqAt args = some S) :
    ∃ t t' T, args = [(t, .seq T), (t', .int)] ∧ S = .seq T := by
  unfold tySeqAt at h
  split at h
  · rename_i t T t'
    exact ⟨t, t', T, rfl, (some.inj h).symm⟩
  · cases h

lemma tySubstr_inv (h : tySubstr args = some S) :
    ∃ t t' t'' T, args = [(t, .seq T), (t', .int), (t'', .int)] ∧ S = .seq T := by
  unfold tySubstr at h
  split at h
  · rename_i t T t' t''
    exact ⟨t, t', t'', T, rfl, (some.inj h).symm⟩
  · cases h

lemma tySeq3_inv (h : tySeq3 args = some S) :
    ∃ t t' t'' T, args = [(t, .seq T), (t', .seq T), (t'', .seq T)] ∧ S = .seq T := by
  unfold tySeq3 at h
  split at h
  swap
  · cases h
  rename_i t T t' T' t'' T''
  split at h
  · rename_i hT
    exact ⟨t, t', t'', T, by rw [hT.1, hT.2], (some.inj h).symm⟩
  · cases h

lemma tyIndexof_inv (h : tyIndexof args = some S) :
    ∃ t t' t'' T, args = [(t, .seq T), (t', .seq T), (t'', .int)] ∧ S = .int := by
  unfold tyIndexof at h
  split at h
  swap
  · cases h
  rename_i t T t' T' t''
  split at h
  · rename_i hT
    exact ⟨t, t', t'', T, by rw [hT], (some.inj h).symm⟩
  · cases h

lemma tyUpdate_inv (h : tyUpdate args = some S) :
    ∃ t t' t'' T, args = [(t, .seq T), (t', .int), (t'', .seq T)] ∧ S = .seq T := by
  unfold tyUpdate at h
  split at h
  swap
  · cases h
  rename_i t T t' t'' T'
  split at h
  · rename_i hT
    exact ⟨t, t', t'', T, by rw [hT], (some.inj h).symm⟩
  · cases h

lemma tyNth_inv (h : tyNth args = some S) :
    ∃ t t', args = [(t, .seq S), (t', .int)] ∧ S.isFn = false := by
  unfold tyNth at h
  split at h
  swap
  · cases h
  rename_i t T t'
  split at h
  · cases h
  rename_i hT
  cases h
  exact ⟨t, t', rfl, by simpa using hT⟩

lemma tyAny1_inv (h : tyAny1 R args = some S) :
    ∃ t T, args = [(t, T)] ∧ T.isFn = false ∧ S = R T := by
  unfold tyAny1 at h
  split at h
  swap
  · cases h
  rename_i t T
  split at h
  · cases h
  · rename_i hT
    exact ⟨t, T, rfl, by simpa using hT, (some.inj h).symm⟩

lemma tyConst_inv {A : Ty} (h : tyConst A args = some S) : args = [] ∧ S = A := by
  unfold tyConst at h
  split at h
  · exact ⟨rfl, (some.inj h).symm⟩
  · cases h

end Inversion

/-! ## The typing function -/

/-- What typing a term yields: a type, or a symbol that still waits for
arguments. -/
inductive TyDen
  | ty (T : Ty)
  | part (s : Sym) (args : List (Term × Ty))
  deriving DecidableEq, Repr

/-- The type of a term whose typing is complete. -/
def TyDen.ty? : TyDen → Option Ty
  | .ty T => some T
  | .part _ _ => none

/-- Close a symbol once it has all its arguments. -/
def completeTy (s : Sym) (args : List (Term × Ty)) : Option TyDen :=
  if args.length = s.arity then (symTy s args).map .ty else some (.part s args)

/-- Apply what the head denotes to one more argument. -/
def applyTy (a : Term) (T : Ty) : TyDen → Option TyDen
  | .part s args => completeTy s (args ++ [(a, T)])
  | .ty (.fn A B) => if T = A then some (.ty B) else none
  | .ty _ => none

/-- Typing, with partially applied symbols.  `Γ` gives the declared types of
the user's constants. -/
def tyDen (Γ : Nat → Ty) : Term → Option TyDen
  | .bool _ => some (.ty .bool)
  | .num _ => some (.ty .int)
  | .rat _ => some (.ty .real)
  | .bin w _ => some (.ty (.bitvec w))
  | .str _ => some (.ty (.seq .char))
  | .const n => some (.ty (Γ n))
  | .sym s => completeTy s []
  | .app f a =>
    (tyDen Γ f).bind fun d => ((tyDen Γ a).bind TyDen.ty?).bind fun T => applyTy a T d

def typeof (Γ : Nat → Ty) (t : Term) : Option Ty := (tyDen Γ t).bind TyDen.ty?

variable {s : Sym}

lemma typeof_uop (Γ : Nat → Ty) (hs : s.arity = 1) (a : Term) :
    typeof Γ (.uop s a) = (typeof Γ a).bind fun T => symTy s [(a, T)] := by
  simp only [typeof, tyDen, completeTy, hs]
  cases h : (tyDen Γ a).bind TyDen.ty? with
  | none => simp
  | some T =>
    cases hT : symTy s [(a, T)] <;> simp [applyTy, completeTy, hs, hT, TyDen.ty?]

lemma typeof_bop (Γ : Nat → Ty) (hs : s.arity = 2) (a b : Term) : typeof Γ (.bop s a b) =
      (typeof Γ a).bind fun T => (typeof Γ b).bind fun T' => symTy s [(a, T), (b, T')] := by
  simp only [typeof, tyDen, completeTy, hs]
  cases h : (tyDen Γ a).bind TyDen.ty? with
  | none => simp
  | some T =>
    cases h' : (tyDen Γ b).bind TyDen.ty? with
    | none => simp [applyTy, completeTy, hs]
    | some T' =>
      cases hT : symTy s [(a, T), (b, T')] <;>
        simp [applyTy, completeTy, hs, hT, TyDen.ty?]

variable {T : Ty}

variable {a b : Term} {Γ : Nat → Ty}

/-- A well-typed binary application has well-typed arguments. -/
lemma typeof_bop_inv (hs : s.arity = 2) (h : typeof Γ (.bop s a b) = some T) :
    ∃ A B, typeof Γ a = some A ∧ typeof Γ b = some B ∧ symTy s [(a, A), (b, B)] = some T := by
  rw [typeof_bop Γ hs] at h
  obtain ⟨A, hA, h⟩ := bind_inv h
  obtain ⟨B, hB, h⟩ := bind_inv h
  exact ⟨A, B, hA, hB, h⟩

lemma typeof_top (Γ : Nat → Ty) (hs : s.arity = 3) (a b c : Term) : typeof Γ (.app (.bop s a b) c) =
      (typeof Γ a).bind fun T => (typeof Γ b).bind fun T' => (typeof Γ c).bind fun T'' =>
        symTy s [(a, T), (b, T'), (c, T'')] := by
  simp only [typeof, tyDen, completeTy, hs]
  cases h : (tyDen Γ a).bind TyDen.ty? with
  | none => simp
  | some T =>
    cases h' : (tyDen Γ b).bind TyDen.ty? with
    | none => simp [applyTy, completeTy, hs]
    | some T' =>
      cases h'' : (tyDen Γ c).bind TyDen.ty? with
      | none => simp [applyTy, completeTy, hs]
      | some T'' =>
        cases hT : symTy s [(a, T), (b, T'), (c, T'')] <;>
          simp [applyTy, completeTy, hs, hT, TyDen.ty?]

lemma typeof_connective_inv (hs : s.arity = 2) (hty : symTy s = tyFn2 .bool .bool .bool)
    (h : typeof Γ (.bop s a b) = some T) :
    typeof Γ a = some .bool ∧ typeof Γ b = some .bool := by
  obtain ⟨A, B, hA, hB, h⟩ := typeof_bop_inv hs h
  rw [hty] at h
  obtain ⟨t, t', heq, _⟩ := tyFn2_inv h
  cases heq
  exact ⟨hA, hB⟩

lemma typeof_arith2_inv {R : Ty → Ty} (hs : s.arity = 2)
    (hty : symTy s = tyArith2 R) (h : typeof Γ (.bop s a b) = some T) :
    ∃ S, typeof Γ a = some S ∧ typeof Γ b = some S ∧ (S = .int ∨ S = .real) ∧ T = R S := by
  obtain ⟨A, B, hA, hB, h⟩ := typeof_bop_inv hs h
  rw [hty] at h
  obtain ⟨t, t', S, heq, hS, rfl⟩ := tyArith2_inv h
  cases heq
  exact ⟨_, hA, hB, hS, rfl⟩

/-! ## Applications of arbitrary heads -/

lemma symTy_fn {args : List (Term × Ty)} {A B : Ty} (h : symTy s args = some (.fn A B)) :
    (s = .ite ∨ s = .bvite) ∧ ∃ c t t', args = [c, (t, .fn A B), (t', .fn A B)] := by
  cases s <;> dsimp only [symTy] at h <;> try contradiction
  case ite =>
    obtain ⟨c, t, t', rfl⟩ := tyIte_inv h
    exact ⟨.inl rfl, _, t, t', rfl⟩
  case bvite =>
    obtain ⟨c, t, t', rfl⟩ := tyBvite_inv h
    exact ⟨.inr rfl, _, t, t', rfl⟩
  case bit =>
    obtain ⟨_, _, _, _, hS⟩ := tyBit_inv h
    contradiction
  case fromBools =>
    obtain ⟨_, _, _, _, hS⟩ := tyFromBools_inv h
    contradiction
  case not | toInt | isInt | intPow2 | intLog2 | intIspow2 | strToRe | strToLower | strToUpper |
      strToCode | strFromCode | strIsDigit | strToInt | strFromInt | reStar | rePlus | reOpt |
      reComp =>
    obtain ⟨_, _, hS⟩ := tyFn1_inv h
    contradiction
  case or | and | imp | xor | div | mod | divTotal | modTotal | divisible | reConcat | reInter |
      reUnion | reDiff | strLt | strLe | strInRe | rePow | reRange =>
    obtain ⟨_, _, _, hS⟩ := tyFn2_inv h
    contradiction
  case strReplaceRe | strReplaceReAll | strIndexofRe | reLoop =>
    obtain ⟨_, _, _, _, hS⟩ := tyFn3_inv h
    contradiction
  case strLen | strRev =>
    obtain ⟨_, _, _, hS⟩ := tySeq1_inv h
    contradiction
  case strContains | strPrefixof | strSuffixof =>
    obtain ⟨_, _, _, _, hS⟩ := tySeqRel_inv h
    contradiction
  case strAt =>
    obtain ⟨_, _, _, _, hS⟩ := tySeqAt_inv h
    contradiction
  case strSubstr =>
    obtain ⟨_, _, _, _, _, hS⟩ := tySubstr_inv h
    contradiction
  case strReplace | strReplaceAll =>
    obtain ⟨_, _, _, _, _, hS⟩ := tySeq3_inv h
    contradiction
  case strIndexof =>
    obtain ⟨_, _, _, _, _, hS⟩ := tyIndexof_inv h
    contradiction
  case strUpdate =>
    obtain ⟨_, _, _, _, _, hS⟩ := tyUpdate_inv h
    contradiction
  case seqNth =>
    obtain ⟨_, _, _, hS⟩ := tyNth_inv h
    contradiction
  case seqUnit =>
    obtain ⟨_, _, _, _, hS⟩ := tyAny1_inv h
    contradiction
  case purify =>
    obtain ⟨_, T, _, hT, rfl⟩ := tyAny1_inv h
    contradiction
  case eq =>
    obtain ⟨_, _, _, _, hS⟩ := tyEq_inv h
    contradiction
  case plus | minus | times | lt | leq | gt | geq | qdiv | qdivTotal =>
    obtain ⟨_, _, _, _, rfl | rfl, hS⟩ := tyArith2_inv h <;> contradiction
  case toReal | abs | uminus => obtain ⟨_, _, _, rfl | rfl, hS⟩ := tyArith1_inv h <;> contradiction
  case bvsize | bvnot | bvneg | ubvToInt | sbvToInt =>
    obtain ⟨_, _, _, hS⟩ := tyBv1_inv h
    contradiction
  case concat =>
    obtain ⟨_, _, _, _, _, hS⟩ := tyConcat_inv h
    contradiction
  case extract =>
    obtain ⟨_, _, _, _, _, _, _, _, _, _, hS⟩ := tyExtract_inv h
    contradiction
  case bvrepeat | zeroExtend | signExtend =>
    obtain ⟨_, _, _, _, _, _, hS⟩ := tyBvIdx_inv h
    contradiction
  case bvand | bvor | bvxor | bvadd | bvmul | bvudiv | bvurem | bvsub | bvult | bvule | bvugt |
      bvuge | bvslt | bvsle | bvsgt | bvsge | bvshl | bvlshr | bvashr | bvxnor | bvcomp | bvumulo |
      bvsmulo | bvultbv | bvsltbv =>
    obtain ⟨_, _, _, _, hS⟩ := tyBv2_inv h
    contradiction
  case bv =>
    obtain ⟨_, _, _, _, _, hS⟩ := tyBvLit_inv h
    contradiction
  case intToBv =>
    obtain ⟨_, _, _, _, _, hS⟩ := tyIntToBv_inv h
    contradiction
  case seqEmpty | reNone | reAll | reAllchar =>
    obtain ⟨_, hS⟩ := tyConst_inv h
    contradiction
  case strConcat =>
    obtain ⟨_, _, _, _, hS⟩ := tySeq2_inv h
    contradiction

lemma tyDen_app_inv {f : Term} {d : TyDen} (h : tyDen Γ (.app f a) = some d) :
    ∃ T, typeof Γ a = some T ∧ ((∃ B, tyDen Γ f = some (.ty (.fn T B)) ∧ d = .ty B) ∨
        ∃ s args, tyDen Γ f = some (.part s args) ∧ completeTy s (args ++ [(a, T)]) = some d) := by
  obtain ⟨df, hf, hbind⟩ := bind_inv h
  obtain ⟨T, hT, happ⟩ := bind_inv hbind
  refine ⟨T, hT, ?_⟩
  cases df with
  | part s args => exact .inr ⟨s, args, hf, happ⟩
  | ty S =>
    left
    cases S with
    | fn A B =>
      simp only [applyTy] at happ
      split at happ
      · rename_i hTA
        subst hTA
        exact ⟨B, hf, (some.inj happ).symm⟩
      · cases happ
    | _ => contradiction

lemma eq_sym_of_tyDen {t : Term} (h : tyDen Γ t = some (.part s [])) : t = .sym s := by
  cases t with
  | sym s' =>
    rw [tyDen, completeTy] at h
    split at h
    · obtain ⟨T, _, hT⟩ := map_inv h
      contradiction
    · cases h
      rfl
  | app f a =>
    obtain ⟨T, -, ⟨B, -, hd⟩ | ⟨s', args, -, hd⟩⟩ := tyDen_app_inv h
    · contradiction
    rw [completeTy] at hd
    split at hd
    · obtain ⟨S, _, hS⟩ := map_inv hd
      contradiction
    · simp at hd
  | _ => simp [tyDen] at h

lemma typeof_eq_some {t : Term} : typeof Γ t = some T ↔ tyDen Γ t = some (.ty T) := by
  constructor
  · intro h
    obtain ⟨d, hd, hT⟩ := bind_inv h
    cases d with
    | ty S =>
      cases hT
      exact hd
    | part s args => contradiction
  · intro h
    rw [typeof, h]
    rfl

/-- Completing a symbol yields a type only when all arguments are there. -/
lemma completeTy_ty {args : List (Term × Ty)}
    (h : completeTy s args = some (.ty T)) : args.length = s.arity ∧ symTy s args = some T := by
  rw [completeTy] at h
  split at h
  swap
  · cases h
  rename_i hlen
  obtain ⟨S, hS, hT⟩ := map_inv h
  cases hT
  exact ⟨hlen, hS⟩

/-- A binary application `(r x y)` that type checks: the head is a function,
or a symbol that waits for two more arguments. -/
lemma typeof_app2_inv {r x y : Term} {S : Ty} (h : typeof Γ (.app (.app r x) y) = some S) :
    ∃ T T', typeof Γ x = some T ∧ typeof Γ y = some T' ∧ (typeof Γ r = some (.fn T (.fn T' S)) ∨
        (∃ s args, tyDen Γ r = some (.part s args) ∧ T = .fn T' S) ∨
        ∃ s args, tyDen Γ r = some (.part s args) ∧ s.arity = args.length + 2 ∧
          symTy s (args ++ [(x, T), (y, T')]) = some S) := by
  obtain ⟨T', hT', hy⟩ := tyDen_app_inv (typeof_eq_some.1 h)
  rcases hy with ⟨B, hrx, hB⟩ | ⟨s, args, hrx, hd⟩
  · cases hB
    obtain ⟨T, hT, hx⟩ := tyDen_app_inv hrx
    refine ⟨T, T', hT, hT', ?_⟩
    rcases hx with ⟨B, hr, hB⟩ | ⟨s, args, hr, hd⟩
    · cases hB
      exact .inl (typeof_eq_some.2 hr)
    -- a symbol that becomes a function with its last argument
    obtain ⟨_, hsym⟩ := completeTy_ty hd
    obtain ⟨_, c, t, t', hargs⟩ := symTy_fn hsym
    have hlast : (x, T) = (t', Ty.fn T' S) := by
      have := congrArg List.getLast? hargs
      simpa using this
    cases hlast
    exact .inr (.inl ⟨s, args, hr, rfl⟩)
  obtain ⟨T, hT, hx⟩ := tyDen_app_inv hrx
  refine ⟨T, T', hT, hT', .inr (.inr ?_)⟩
  rcases hx with ⟨B, -, hB⟩ | ⟨s', args', hr, hd'⟩
  · contradiction
  obtain ⟨hlen, hsym⟩ := completeTy_ty hd
  rw [completeTy] at hd'
  split at hd'
  · obtain ⟨R, _, hR⟩ := map_inv hd'
    contradiction
  cases hd'
  refine ⟨s, args', hr, ?_, by simpa using hsym⟩
  simpa using hlen.symm

end EthosCpc
