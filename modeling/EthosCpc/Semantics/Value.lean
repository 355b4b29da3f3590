import EthosCpc.Eunoia.Typing
import EthosCpc.Semantics.Strings

/-!
# Meaning of terms

The SMT-LIB meaning of the terms of `EthosCpc.Eunoia.Term`, against which
the proof rules are judged.  A value is an element of the domain of some
type, `Val`, and an interpretation fixes what a user may choose: the sets
behind declared sorts, the constants (functions and predicates included)
and the results of the partial operators outside their domain.

The definition follows the typing function.  A symbol collects the values
of its arguments (`Den.part`) and computes when it has all of them, by
`symVal`.  `value_of_typeof` says that a well-typed term has a value of
its type.
-/

namespace EthosCpc

open Library
open Option (bind_some some.inj)
open List (Forall₂)
open BitVec (getLsbD ofBool ofInt)

/-! ## Domains and interpretations -/

/-- The domain of a type, given the sets behind the declared sorts.  A
character is a code point, a regular language a set of strings. -/
def Dom (U : Nat → Type) : Ty → Type
  | .bool => Bool
  | .int => Int
  | .real => ℝ
  | .bitvec w => BitVec w
  | .seq T => List (Dom U T)
  | .char => CodePoint
  | .reglan => RegLan
  | .usort n => U n
  | .fn A B => Dom U A → Dom U B

abbrev Val (U : Nat → Type) : Type := Σ T : Ty, Dom U T

namespace Val

variable {U : Nat → Type}

abbrev bool (b : Bool) : Val U := ⟨.bool, b⟩
abbrev int (z : Int) : Val U := ⟨.int, z⟩
abbrev real (r : ℝ) : Val U := ⟨.real, r⟩
abbrev bitvec {w : Nat} (v : BitVec w) : Val U := ⟨.bitvec w, v⟩
abbrev reglan (L : RegLan) : Val U := ⟨.reglan, L⟩
abbrev seq (T : Ty) (l : List (Dom U T)) : Val U := ⟨.seq T, l⟩
abbrev str (s : Str) : Val U := ⟨.seq .char, s⟩

/-- Values of one type are equal as values when they are equal. -/
lemma mk_inj {T : Ty} {x y : Dom U T} : (⟨T, x⟩ : Val U) = ⟨T, y⟩ ↔ x = y := by
  constructor
  · intro h
    cases h
    rfl
  · rintro rfl
    rfl

@[simp] lemma bool_inj {b c : Bool} : (Val.bool b : Val U) = Val.bool c ↔ b = c := mk_inj

@[simp] lemma int_inj {x y : Int} : (Val.int x : Val U) = Val.int y ↔ x = y := mk_inj

@[simp] lemma real_inj {x y : ℝ} : (Val.real x : Val U) = Val.real y ↔ x = y := mk_inj

@[simp] lemma bitvec_inj {w : Nat} {x y : BitVec w} :
    (Val.bitvec x : Val U) = Val.bitvec y ↔ x = y := mk_inj

lemma width_eq {w w' : Nat} {x : BitVec w} {y : BitVec w'}
    (h : (Val.bitvec x : Val U) = Val.bitvec y) : w = w' :=
  Ty.bitvec.inj (congrArg Sigma.fst h)

lemma ne_of_type_ne {v v' : Val U} (h : v.1 ≠ v'.1) : v ≠ v' := fun hv => h (hv ▸ rfl)

@[simp] lemma int_ne_real {x : Int} {y : ℝ} : (Val.int x : Val U) ≠ Val.real y :=
  ne_of_type_ne (by simp)

@[simp] lemma real_ne_int {x : Int} {y : ℝ} : (Val.real y : Val U) ≠ Val.int x :=
  ne_of_type_ne (by simp)

end Val

lemma dom_nonempty {U : Nat → Type} (hU : ∀ n, Nonempty (U n)) (T : Ty) : Nonempty (Dom U T) := by
  induction T with
  | bool => exact ⟨(true : Bool)⟩
  | int => exact ⟨(0 : Int)⟩
  | real => exact ⟨(0 : ℝ)⟩
  | bitvec w => exact ⟨(0#w : BitVec w)⟩
  | seq T _ => exact ⟨([] : List (Dom U T))⟩
  | char => exact ⟨(0 : CodePoint)⟩
  | reglan => exact ⟨(0 : RegLan)⟩
  | usort n => exact hU n
  | fn A B _ ihB => exact ⟨fun _ => ihB.some⟩

noncomputable def someDom {U : Nat → Type} (hU : ∀ n, Nonempty (U n)) (T : Ty) : Dom U T :=
  (dom_nonempty hU T).some

lemma nonempty_unit : Nat → Nonempty Unit := fun _ => ⟨()⟩

/-- What an interpretation chooses freely. -/
structure Interp (Γ : Nat → Ty) where
  /-- The sets behind the declared sorts. -/
  U : Nat → Type
  /-- The declared constants, functions and predicates. -/
  const : ∀ n, Dom U (Γ n)
  /-- `(/ x 0)`. -/
  divByZero : ℝ → ℝ
  /-- `(div x 0)`. -/
  intDivByZero : Int → Int
  /-- `(mod x 0)`. -/
  modByZero : Int → Int
  /-- Sorts are not empty. -/
  nonempty : ∀ n, Nonempty (U n) := by exact nonempty_unit
  /-- `(seq.nth s n)` for a position `n` outside of `s`. -/
  nthOutside : ∀ T, List (Dom U T) → Int → Dom U T :=
    fun T _ _ => someDom nonempty T

/-! ## Shapes of operators -/

section Shapes

variable {U : Nat → Type}

open Classical in
/-- The Boolean value of a proposition. -/
noncomputable def truth (p : Prop) : Bool := decide p

variable {p : Prop}

@[simp] lemma truth_eq_true : truth p = true ↔ p := by simp [truth]

@[simp] lemma truth_eq_false : truth p = false ↔ ¬ p := by simp [truth]

lemma truth_inj {p q : Prop} : truth p = truth q ↔ (p ↔ q) := by simp [truth]

lemma truth_of (h : p) : truth p = true := truth_eq_true.2 h

lemma truth_of_not (h : ¬ p) : truth p = false := truth_eq_false.2 h

lemma eq_truth {b : Bool} : b = truth p ↔ (b = true ↔ p) := by
  by_cases hp : p
  · rw [truth_of hp]
    simp [hp]
  · rw [truth_of_not hp]
    simp [hp]

def vBool1 (f : Bool → Bool) : List (Val U) → Option (Val U)
  | [⟨.bool, x⟩] => some (.bool (f x))
  | _ => none

def vBool2 (f : Bool → Bool → Bool) : List (Val U) → Option (Val U)
  | [⟨.bool, x⟩, ⟨.bool, y⟩] => some (.bool (f x y))
  | _ => none

noncomputable def vEq : List (Val U) → Option (Val U)
  | [⟨T, x⟩, ⟨T', y⟩] => if h : T' = T then some (.bool (truth (x = h ▸ y))) else none
  | _ => none

def vIte : List (Val U) → Option (Val U)
  | [⟨.bool, c⟩, ⟨T, x⟩, ⟨T', y⟩] =>
    if T' = T then some (bif c then ⟨T, x⟩ else ⟨T', y⟩) else none
  | _ => none

def vArith1 (fi : Int → Int) (fr : ℝ → ℝ) : List (Val U) → Option (Val U)
  | [⟨.int, x⟩] => some (.int (fi x))
  | [⟨.real, x⟩] => some (.real (fr x))
  | _ => none

def vArith2 (fi : Int → Int → Int) (fr : ℝ → ℝ → ℝ) : List (Val U) → Option (Val U)
  | [⟨.int, x⟩, ⟨.int, y⟩] => some (.int (fi x y))
  | [⟨.real, x⟩, ⟨.real, y⟩] => some (.real (fr x y))
  | _ => none

noncomputable def vRel (fi : Int → Int → Prop) (fr : ℝ → ℝ → Prop) : List (Val U) → Option (Val U)
  | [⟨.int, x⟩, ⟨.int, y⟩] => some (.bool (truth (fi x y)))
  | [⟨.real, x⟩, ⟨.real, y⟩] => some (.bool (truth (fr x y)))
  | _ => none

/-- The two divisions, which turn integer arguments into reals. -/
noncomputable def vQdiv (f : ℝ → ℝ → ℝ) : List (Val U) → Option (Val U)
  | [⟨.int, x⟩, ⟨.int, y⟩] => some (.real (f (Int.cast x) (Int.cast y)))
  | [⟨.real, x⟩, ⟨.real, y⟩] => some (.real (f x y))
  | _ => none

noncomputable def vToReal : List (Val U) → Option (Val U)
  | [⟨.int, x⟩] => some (.real (Int.cast x))
  | [⟨.real, x⟩] => some (.real x)
  | _ => none

def vReal1 (f : ℝ → Val U) : List (Val U) → Option (Val U)
  | [⟨.real, x⟩] => some (f x)
  | _ => none

def vInt1 (f : Int → Val U) : List (Val U) → Option (Val U)
  | [⟨.int, x⟩] => some (f x)
  | _ => none

def vInt2 (f : Int → Int → Val U) : List (Val U) → Option (Val U)
  | [⟨.int, x⟩, ⟨.int, y⟩] => some (f x y)
  | _ => none

def vBv1 (f : ∀ w, BitVec w → Val U) : List (Val U) → Option (Val U)
  | [⟨.bitvec w, x⟩] => some (f w x)
  | _ => none

def vBv2 (f : ∀ w, BitVec w → BitVec w → Val U) : List (Val U) → Option (Val U)
  | [⟨.bitvec w, x⟩, ⟨.bitvec w', y⟩] => if h : w' = w then some (f w x (h ▸ y)) else none
  | _ => none

def vBvIdx (f : Nat → ∀ w, BitVec w → Val U) : List (Val U) → Option (Val U)
  | [⟨.int, i⟩, ⟨.bitvec w, x⟩] => some (f (Int.toNat i) w x)
  | _ => none

def vConcat (f : ∀ w w', BitVec w → BitVec w' → Val U) : List (Val U) → Option (Val U)
  | [⟨.bitvec w, x⟩, ⟨.bitvec w', y⟩] => some (f w w' x y)
  | _ => none

def vExtract (f : Int → Int → ∀ w, BitVec w → Val U) : List (Val U) → Option (Val U)
  | [⟨.int, h⟩, ⟨.int, l⟩, ⟨.bitvec w, x⟩] => some (f h l w x)
  | _ => none

def vBvite : List (Val U) → Option (Val U)
  | [⟨.bitvec 1, c⟩, ⟨T, x⟩, ⟨T', y⟩] =>
    if T' = T then some (bif getLsbD (w := 1) c 0 then ⟨T, x⟩ else ⟨T', y⟩) else none
  | _ => none

def vBit : List (Val U) → Option (Val U)
  | [⟨.int, i⟩, ⟨.bitvec w, x⟩] => some (.bool (getLsbD (w := w) x (Int.toNat i)))
  | _ => none

def vFromBools : List (Val U) → Option (Val U)
  | [⟨.bool, b⟩, ⟨.bitvec w, x⟩] => some (.bitvec (BitVec.concat (n := w) x b))
  | _ => none

def vSeq2 : List (Val U) → Option (Val U)
  | [⟨.seq T, x⟩, ⟨.seq T', y⟩] =>
    if h : T' = T then some (.seq T (List.append x (h ▸ y))) else none
  | _ => none

def vReglan2 (f : RegLan → RegLan → RegLan) : List (Val U) → Option (Val U)
  | [⟨.reglan, x⟩, ⟨.reglan, y⟩] => some (.reglan (f x y))
  | _ => none

def vStrToRe : List (Val U) → Option (Val U)
  | [⟨.seq .char, x⟩] => some (.reglan ({x} : Set Str))
  | _ => none

def vSeq1 (f : ∀ T, List (Dom U T) → Val U) : List (Val U) → Option (Val U)
  | [⟨.seq T, x⟩] => some (f T x)
  | _ => none

noncomputable def vSeqRel (p : ∀ T, List (Dom U T) → List (Dom U T) → Prop) :
    List (Val U) → Option (Val U)
  | [⟨.seq T, x⟩, ⟨.seq T', y⟩] => if h : T' = T then some (.bool (truth (p T x (h ▸ y)))) else none
  | _ => none

def vSeqAt (f : ∀ T, List (Dom U T) → Int → Val U) : List (Val U) → Option (Val U)
  | [⟨.seq T, x⟩, ⟨.int, n⟩] => some (f T x n)
  | _ => none

def vSubstr : List (Val U) → Option (Val U)
  | [⟨.seq T, x⟩, ⟨.int, n⟩, ⟨.int, m⟩] => some (.seq T (Words.substr x n m))
  | _ => none

def vSeq3 (f : ∀ T, List (Dom U T) → List (Dom U T) → List (Dom U T) → List (Dom U T)) :
    List (Val U) → Option (Val U)
  | [⟨.seq T, x⟩, ⟨.seq T', y⟩, ⟨.seq T'', z⟩] =>
    if h : T' = T then
      if h' : T'' = T then some (.seq T (f T x (h ▸ y) (h' ▸ z))) else none
    else none
  | _ => none

open Classical in
noncomputable def vIndexof : List (Val U) → Option (Val U)
  | [⟨.seq T, x⟩, ⟨.seq T', y⟩, ⟨.int, n⟩] =>
    if h : T' = T then some (.int (Words.indexof x (h ▸ y) n)) else none
  | _ => none

def vUpdate : List (Val U) → Option (Val U)
  | [⟨.seq T, x⟩, ⟨.int, n⟩, ⟨.seq T', y⟩] =>
    if h : T' = T then some (.seq T (Words.update x n (h ▸ y))) else none
  | _ => none

def vAny1 (f : ∀ T, Dom U T → Val U) : List (Val U) → Option (Val U)
  | [⟨T, x⟩] => some (f T x)
  | _ => none

def vStr1 (f : Str → Val U) : List (Val U) → Option (Val U)
  | [⟨.seq .char, x⟩] => some (f x)
  | _ => none

def vStr2 (f : Str → Str → Val U) : List (Val U) → Option (Val U)
  | [⟨.seq .char, x⟩, ⟨.seq .char, y⟩] => some (f x y)
  | _ => none

def vStrRe (f : Str → RegLan → Val U) : List (Val U) → Option (Val U)
  | [⟨.seq .char, x⟩, ⟨.reglan, L⟩] => some (f x L)
  | _ => none

def vStrReStr (f : Str → RegLan → Str → Val U) : List (Val U) → Option (Val U)
  | [⟨.seq .char, x⟩, ⟨.reglan, L⟩, ⟨.seq .char, y⟩] => some (f x L y)
  | _ => none

def vStrReInt (f : Str → RegLan → Int → Val U) : List (Val U) → Option (Val U)
  | [⟨.seq .char, x⟩, ⟨.reglan, L⟩, ⟨.int, n⟩] => some (f x L n)
  | _ => none

def vReglan1 (f : RegLan → RegLan) : List (Val U) → Option (Val U)
  | [⟨.reglan, L⟩] => some (.reglan (f L))
  | _ => none

def vRePow (f : Int → RegLan → RegLan) : List (Val U) → Option (Val U)
  | [⟨.int, n⟩, ⟨.reglan, L⟩] => some (.reglan (f n L))
  | _ => none

def vReLoop (f : Int → Int → RegLan → RegLan) : List (Val U) → Option (Val U)
  | [⟨.int, l⟩, ⟨.int, u⟩, ⟨.reglan, L⟩] => some (.reglan (f l u L))
  | _ => none

def vConst (v : Val U) : List (Val U) → Option (Val U)
  | [] => some v
  | _ => none

/-! ### Inversion of the shapes -/

variable {vs : List (Val U)} {r : Val U}

lemma vBool1_inv {f : Bool → Bool} (h : vBool1 f vs = some r) :
    ∃ x : Bool, vs = [Val.bool x] ∧ r = Val.bool (f x) := by
  unfold vBool1 at h
  split at h
  · rename_i x
    exact ⟨x, rfl, (some.inj h).symm⟩
  · cases h

lemma vBool2_inv {f : Bool → Bool → Bool} (h : vBool2 f vs = some r) :
    ∃ x y : Bool, vs = [Val.bool x, Val.bool y] ∧ r = Val.bool (f x y) := by
  unfold vBool2 at h
  split at h
  · rename_i x y
    exact ⟨x, y, rfl, (some.inj h).symm⟩
  · cases h

lemma vEq_inv (h : vEq vs = some r) :
    ∃ (T : Ty) (x y : Dom U T), vs = [⟨T, x⟩, ⟨T, y⟩] ∧ r = Val.bool (truth (x = y)) := by
  unfold vEq at h
  split at h
  swap
  · cases h
  rename_i T x T' y
  split at h
  · rename_i hT
    subst hT
    exact ⟨_, x, y, rfl, (some.inj h).symm⟩
  · cases h

lemma vArith1_inv {fi : Int → Int} {fr : ℝ → ℝ} (h : vArith1 fi fr vs = some r) :
    (∃ x : Int, vs = [Val.int x] ∧ r = Val.int (fi x)) ∨
    (∃ x : ℝ, vs = [Val.real x] ∧ r = Val.real (fr x)) := by
  unfold vArith1 at h
  split at h
  · rename_i x
    exact .inl ⟨x, rfl, (some.inj h).symm⟩
  · rename_i x
    exact .inr ⟨x, rfl, (some.inj h).symm⟩
  · cases h

lemma vArith2_inv {fi : Int → Int → Int} {fr : ℝ → ℝ → ℝ} (h : vArith2 fi fr vs = some r) :
    (∃ x y : Int, vs = [Val.int x, Val.int y] ∧ r = Val.int (fi x y)) ∨
    (∃ x y : ℝ, vs = [Val.real x, Val.real y] ∧ r = Val.real (fr x y)) := by
  unfold vArith2 at h
  split at h
  · rename_i x y
    exact .inl ⟨x, y, rfl, (some.inj h).symm⟩
  · rename_i x y
    exact .inr ⟨x, y, rfl, (some.inj h).symm⟩
  · cases h

lemma vRel_inv {fi : Int → Int → Prop} {fr : ℝ → ℝ → Prop} (h : vRel fi fr vs = some r) :
    (∃ x y : Int, vs = [Val.int x, Val.int y] ∧ r = Val.bool (truth (fi x y))) ∨
    (∃ x y : ℝ, vs = [Val.real x, Val.real y] ∧ r = Val.bool (truth (fr x y))) := by
  unfold vRel at h
  split at h
  · rename_i x y
    exact .inl ⟨x, y, rfl, (some.inj h).symm⟩
  · rename_i x y
    exact .inr ⟨x, y, rfl, (some.inj h).symm⟩
  · cases h

lemma vQdiv_inv {f : ℝ → ℝ → ℝ} (h : vQdiv f vs = some r) :
    (∃ x y : Int, vs = [Val.int x, Val.int y] ∧ r = Val.real (f x y)) ∨
    (∃ x y : ℝ, vs = [Val.real x, Val.real y] ∧ r = Val.real (f x y)) := by
  unfold vQdiv at h
  split at h
  · rename_i x y
    exact .inl ⟨x, y, rfl, (some.inj h).symm⟩
  · rename_i x y
    exact .inr ⟨x, y, rfl, (some.inj h).symm⟩
  · cases h

lemma vToReal_inv (h : vToReal vs = some r) : (∃ x : Int, vs = [Val.int x] ∧ r = Val.real x) ∨
    (∃ x : ℝ, vs = [Val.real x] ∧ r = Val.real x) := by
  unfold vToReal at h
  split at h
  · rename_i x
    exact .inl ⟨x, rfl, (some.inj h).symm⟩
  · rename_i x
    exact .inr ⟨x, rfl, (some.inj h).symm⟩
  · cases h

lemma vBv1_inv {f : ∀ w, BitVec w → Val U} (h : vBv1 f vs = some r) :
    ∃ (w : Nat) (x : BitVec w), vs = [Val.bitvec x] ∧ r = f w x := by
  unfold vBv1 at h
  split at h
  · rename_i w x
    exact ⟨w, x, rfl, (some.inj h).symm⟩
  · cases h

lemma vBv2_inv {f : ∀ w, BitVec w → BitVec w → Val U} (h : vBv2 f vs = some r) :
    ∃ (w : Nat) (x y : BitVec w), vs = [Val.bitvec x, Val.bitvec y] ∧ r = f w x y := by
  unfold vBv2 at h
  split at h
  swap
  · cases h
  rename_i w x w' y
  split at h
  · rename_i hw
    subst hw
    exact ⟨_, x, y, rfl, (some.inj h).symm⟩
  · cases h

lemma vInt1_inv {f : Int → Val U} (h : vInt1 f vs = some r) :
    ∃ x : Int, vs = [Val.int x] ∧ r = f x := by
  unfold vInt1 at h
  split at h
  · rename_i x
    exact ⟨x, rfl, (some.inj h).symm⟩
  · cases h

lemma vInt2_inv {f : Int → Int → Val U} (h : vInt2 f vs = some r) :
    ∃ x y : Int, vs = [Val.int x, Val.int y] ∧ r = f x y := by
  unfold vInt2 at h
  split at h
  · rename_i x y
    exact ⟨x, y, rfl, (some.inj h).symm⟩
  · cases h

lemma vBvIdx_inv {f : Nat → ∀ w, BitVec w → Val U} (h : vBvIdx f vs = some r) :
    ∃ (i : Int) (w : Nat) (x : BitVec w), vs = [Val.int i, Val.bitvec x] ∧ r = f i.toNat w x := by
  unfold vBvIdx at h
  split at h
  · rename_i i w x
    exact ⟨i, w, x, rfl, (some.inj h).symm⟩
  · cases h

lemma vExtract_inv {f : Int → Int → ∀ w, BitVec w → Val U} (h : vExtract f vs = some r) :
    ∃ (m n : Int) (w : Nat) (x : BitVec w), vs = [Val.int m, Val.int n, Val.bitvec x] ∧
      r = f m n w x := by
  unfold vExtract at h
  split at h
  · rename_i m n w x
    exact ⟨m, n, w, x, rfl, (some.inj h).symm⟩
  · cases h

lemma vConcat_inv {f : ∀ w w', BitVec w → BitVec w' → Val U} (h : vConcat f vs = some r) :
    ∃ (w w' : Nat) (x : BitVec w) (y : BitVec w'), vs = [Val.bitvec x, Val.bitvec y] ∧
      r = f w w' x y := by
  unfold vConcat at h
  split at h
  · rename_i w x w' y
    exact ⟨w, w', x, y, rfl, (some.inj h).symm⟩
  · cases h

lemma vSeq2_inv (h : vSeq2 vs = some r) :
    ∃ (T : Ty) (x y : List (Dom U T)), vs = [Val.seq T x, Val.seq T y] ∧
      r = Val.seq T (x ++ y) := by
  unfold vSeq2 at h
  split at h
  swap
  · cases h
  rename_i T x T' y
  split at h
  · rename_i hT
    subst hT
    exact ⟨_, x, y, rfl, (some.inj h).symm⟩
  · cases h

lemma vReglan2_inv {f : RegLan → RegLan → RegLan} (h : vReglan2 f vs = some r) :
    ∃ x y : RegLan, vs = [Val.reglan x, Val.reglan y] ∧ r = Val.reglan (f x y) := by
  unfold vReglan2 at h
  split at h
  · rename_i x y
    exact ⟨x, y, rfl, (some.inj h).symm⟩
  · cases h

lemma vReglan1_inv {f : RegLan → RegLan} (h : vReglan1 f vs = some r) :
    ∃ x : RegLan, vs = [Val.reglan x] ∧ r = Val.reglan (f x) := by
  unfold vReglan1 at h
  split at h
  · rename_i x
    exact ⟨x, rfl, (some.inj h).symm⟩
  · cases h

lemma vStrToRe_inv (h : vStrToRe vs = some r) :
    ∃ x : Str, vs = [Val.str x] ∧ r = Val.reglan ({x} : Set Str) := by
  unfold vStrToRe at h
  split at h
  · rename_i x
    exact ⟨x, rfl, (some.inj h).symm⟩
  · cases h

lemma vStr1_inv {f : Str → Val U} (h : vStr1 f vs = some r) :
    ∃ x : Str, vs = [Val.str x] ∧ r = f x := by
  unfold vStr1 at h
  split at h
  · rename_i x
    exact ⟨x, rfl, (some.inj h).symm⟩
  · cases h

lemma vStr2_inv {f : Str → Str → Val U} (h : vStr2 f vs = some r) :
    ∃ x y : Str, vs = [Val.str x, Val.str y] ∧ r = f x y := by
  unfold vStr2 at h
  split at h
  · rename_i x y
    exact ⟨x, y, rfl, (some.inj h).symm⟩
  · cases h

lemma vStrRe_inv {f : Str → RegLan → Val U} (h : vStrRe f vs = some r) :
    ∃ (x : Str) (L : RegLan), vs = [Val.str x, Val.reglan L] ∧ r = f x L := by
  unfold vStrRe at h
  split at h
  · rename_i x L
    exact ⟨x, L, rfl, (some.inj h).symm⟩
  · cases h

lemma vBvite_eq (c : BitVec 1) {T : Ty} (x y : Dom U T) :
    vBvite [Val.bitvec c, ⟨T, x⟩, ⟨T, y⟩] = some (bif c.getLsbD 0 then ⟨T, x⟩ else ⟨T, y⟩) :=
  if_pos rfl

lemma vBvite_same (c : BitVec 1) (v : Val U) : vBvite [Val.bitvec c, v, v] = some v := by
  rw [vBvite_eq, Bool.cond_self]

lemma vIte_inv (h : vIte vs = some r) :
    ∃ (c : Bool) (T : Ty) (x y : Dom U T), vs = [Val.bool c, ⟨T, x⟩, ⟨T, y⟩] ∧
      r = bif c then ⟨T, x⟩ else ⟨T, y⟩ := by
  unfold vIte at h
  split at h
  swap
  · cases h
  rename_i c T x T' y
  split at h
  · rename_i hT
    subst hT
    exact ⟨c, _, x, y, rfl, (some.inj h).symm⟩
  · cases h

end Shapes

/-! ## Operators of the integers -/

/-- `int.pow2`: zero for negative exponents. -/
def intPow2 (x : Int) : Int := if x < 0 then 0 else 2 ^ x.toNat

/-- `int.log2`: zero for arguments that are not positive. -/
def intLog2 (x : Int) : Int := if x ≤ 0 then 0 else (Nat.log2 x.toNat : Nat)

def intIspow2 (x : Int) : Prop := ∃ k : Nat, x = 2 ^ k

open Classical in
/-- `/`, which an interpretation chooses freely where the divisor is zero. -/
noncomputable def realDiv {Γ : Nat → Ty} (I : Interp Γ) (x y : ℝ) : ℝ :=
  if y = 0 then I.divByZero x else x / y

/-- `seq.nth`, which an interpretation chooses freely outside of the sequence. -/
def nthVal {Γ : Nat → Ty} (I : Interp Γ) (T : Ty) (x : List (Dom I.U T)) (n : Int) : Dom I.U T :=
  if 0 ≤ n then x[n.toNat]?.getD (I.nthOutside T x n) else I.nthOutside T x n

/-! ## Meaning of the symbols -/

open Classical Library Computability in
/-- The value of a symbol applied to all its arguments. -/
noncomputable def symVal {Γ : Nat → Ty} (I : Interp Γ) (s : Sym) :
    List (Val I.U) → Option (Val I.U) :=
  match s with
  | .ite => vIte
  | .not => vBool1 Bool.not
  | .or => vBool2 Bool.or
  | .and => vBool2 Bool.and
  | .imp => vBool2 fun a b => !a || b
  | .xor => vBool2 Bool.xor
  | .eq => vEq
  | .listNil | .listCons | .aciSorted => fun _ => none
  | .plus => vArith2 (· + ·) (· + ·)
  | .minus => vArith2 (· - ·) (· - ·)
  | .times => vArith2 (· * ·) (· * ·)
  | .lt => vRel (· < ·) (· < ·)
  | .leq => vRel (· ≤ ·) (· ≤ ·)
  | .gt => vRel (· > ·) (· > ·)
  | .geq => vRel (· ≥ ·) (· ≥ ·)
  | .toReal => vToReal
  | .toInt => vReal1 fun x => .int ⌊x⌋
  | .isInt => vReal1 fun x => .bool (truth (∃ z : Int, x = z))
  | .abs => vArith1 (fun x => |x|) fun x => |x|
  | .uminus => vArith1 (fun x => -x) fun x => -x
  | .div => vInt2 fun x y => .int (if y = 0 then I.intDivByZero x else x / y)
  | .mod => vInt2 fun x y => .int (if y = 0 then I.modByZero x else x % y)
  | .divTotal => vInt2 fun x y => .int (x / y)
  | .modTotal => vInt2 fun x y => .int (x % y)
  | .divisible => vInt2 fun x y => .bool (truth (x ∣ y))
  | .intPow2 => vInt1 fun x => .int (intPow2 x)
  | .intLog2 => vInt1 fun x => .int (intLog2 x)
  | .intIspow2 => vInt1 fun x => .bool (truth (intIspow2 x))
  | .qdiv => vQdiv (realDiv I)
  | .qdivTotal => vQdiv fun x y => x / y
  | .bvsize => vBv1 fun w _ => .int w
  | .concat => vConcat fun _ _ x y => .bitvec (x ++ y)
  | .extract => vExtract fun h l _ x => .bitvec (x.extractLsb' l.toNat (h - l + 1).toNat)
  | .bvrepeat => vBvIdx fun i _ x => .bitvec (x.replicate i)
  | .bvnot => vBv1 fun _ x => .bitvec (~~~ x)
  | .bvneg => vBv1 fun _ x => .bitvec (-x)
  | .bvand => vBv2 fun _ x y => .bitvec (x &&& y)
  | .bvor => vBv2 fun _ x y => .bitvec (x ||| y)
  | .bvxor => vBv2 fun _ x y => .bitvec (x ^^^ y)
  | .bvadd => vBv2 fun _ x y => .bitvec (x + y)
  | .bvmul => vBv2 fun _ x y => .bitvec (x * y)
  | .bvudiv => vBv2 fun _ x y => .bitvec (x.smtUDiv y)
  | .bvurem => vBv2 fun _ x y => .bitvec (x.umod y)
  | .bvsub => vBv2 fun _ x y => .bitvec (x - y)
  | .bvult => vBv2 fun _ x y => .bool (x.ult y)
  | .bvule => vBv2 fun _ x y => .bool (x.ule y)
  | .bvugt => vBv2 fun _ x y => .bool (y.ult x)
  | .bvuge => vBv2 fun _ x y => .bool (y.ule x)
  | .bvslt => vBv2 fun _ x y => .bool (x.slt y)
  | .bvsle => vBv2 fun _ x y => .bool (x.sle y)
  | .bvsgt => vBv2 fun _ x y => .bool (y.slt x)
  | .bvsge => vBv2 fun _ x y => .bool (y.sle x)
  | .bvshl => vBv2 fun _ x y => .bitvec (x <<< y)
  | .bvlshr => vBv2 fun _ x y => .bitvec (x >>> y)
  | .bvashr => vBv2 fun _ x y => .bitvec (x.sshiftRight' y)
  | .zeroExtend => vBvIdx fun i w x => .bitvec (x.setWidth (w + i))
  | .signExtend => vBvIdx fun i w x => .bitvec (x.signExtend (w + i))
  | .bvxnor => vBv2 fun _ x y => .bitvec (~~~ (x ^^^ y))
  | .bvcomp => vBv2 fun _ x y => .bitvec (ofBool (x == y))
  | .bvite => vBvite
  | .bvumulo => vBv2 fun _ x y => .bool (x.umulOverflow y)
  | .bvsmulo => vBv2 fun _ x y => .bool (x.smulOverflow y)
  | .bvultbv => vBv2 fun _ x y => .bitvec (ofBool (x.ult y))
  | .bvsltbv => vBv2 fun _ x y => .bitvec (ofBool (x.slt y))
  | .bit => vBit
  | .fromBools => vFromBools
  | .bv => vInt2 fun n w => .bitvec (ofInt w.toNat n)
  | .intToBv => vInt2 fun w n => .bitvec (ofInt w.toNat n)
  | .ubvToInt => vBv1 fun _ x => .int x.toNat
  | .sbvToInt => vBv1 fun _ x => .int x.toInt
  | .seqEmpty T => vConst (.seq T [])
  | .strConcat => vSeq2
  | .strToRe => vStrToRe
  | .reNone => vConst (.reglan 0)
  | .reAll => vConst (.reglan (⊤ : Set Str))
  | .reAllchar => vConst (.reglan EthosCpc.reAllchar)
  | .reConcat => vReglan2 (· * ·)
  | .reInter => vReglan2 fun L M => (L ∩ M : Set Str)
  | .reUnion => vReglan2 (· + ·)
  | .strLen => vSeq1 fun _ x => .int x.length
  | .strRev => vSeq1 fun T x => .seq T x.reverse
  | .strSubstr => vSubstr
  | .strAt => vSeqAt fun T x n => .seq T (Words.substr x n 1)
  | .strContains => vSeqRel fun _ x y => y <:+: x
  | .strPrefixof => vSeqRel fun _ x y => x <+: y
  | .strSuffixof => vSeqRel fun _ x y => x <:+ y
  | .strReplace => vSeq3 fun _ => Words.replace
  | .strReplaceAll => vSeq3 fun _ => Words.replaceAll
  | .strIndexof => vIndexof
  | .strUpdate => vUpdate
  | .seqUnit => vAny1 fun T x => .seq T [x]
  | .seqNth => vSeqAt fun T x n => ⟨T, nthVal I T x n⟩
  | .purify => vAny1 fun T x => ⟨T, x⟩
  | .strToLower => vStr1 fun x => .str (x.map charToLower)
  | .strToUpper => vStr1 fun x => .str (x.map charToUpper)
  | .strToCode => vStr1 fun x => .int (strToCode x)
  | .strFromCode => vInt1 fun n => .str (strFromCode n)
  | .strIsDigit => vStr1 fun x => .bool (truth (strIsDigit x))
  | .strToInt => vStr1 fun x => .int (strToInt x)
  | .strFromInt => vInt1 fun n => .str (strFromInt n)
  | .strLt => vStr2 fun x y => .bool (truth (strLt x y))
  | .strLe => vStr2 fun x y => .bool (truth (strLe x y))
  | .strInRe => vStrRe fun x L => .bool (truth (x ∈ L))
  | .strReplaceRe => vStrReStr fun x L y => .str (replaceRe x L y)
  | .strReplaceReAll => vStrReStr fun x L y => .str (replaceReAll x L y)
  | .strIndexofRe => vStrReInt fun x L n => .int (indexofRe x L n)
  | .reStar => vReglan1 fun L => L∗
  | .rePlus => vReglan1 fun L => L * L∗
  | .reOpt => vReglan1 fun L => 1 + L
  | .reComp => vReglan1 fun L => Lᶜ
  | .rePow => vRePow rePow
  | .reRange => vStr2 fun x y => .reglan (reRange x y)
  | .reDiff => vReglan2 fun L M => (L \ M : Set Str)
  | .reLoop => vReLoop reLoop

/-! ## Meaning of terms -/

/-- A value, or a symbol that still waits for arguments. -/
inductive Den (U : Nat → Type)
  | val (v : Val U)
  | part (s : Sym) (args : List (Val U))

def Den.val? {U : Nat → Type} : Den U → Option (Val U)
  | .val v => some v
  | .part _ _ => none

section Terms

variable {Γ : Nat → Ty} (I : Interp Γ)

/-- Close a symbol once it has all its arguments. -/
noncomputable def complete (s : Sym) (args : List (Val I.U)) : Option (Den I.U) :=
  if args.length = s.arity then (symVal I s args).map .val else some (.part s args)

/-- Apply what the head denotes to one more value. -/
noncomputable def applyDen : Den I.U → Val I.U → Option (Den I.U)
  | .part s args, v => complete I s (args ++ [v])
  | .val ⟨.fn A B, f⟩, ⟨T, x⟩ =>
    if h : T = A then some (.val ⟨B, (f : Dom I.U A → Dom I.U B) (h ▸ x)⟩) else none
  | .val _, _ => none

/-- The meaning of a term, with partially applied symbols. -/
noncomputable def den : Term → Option (Den I.U)
  | .bool b => some (.val (.bool b))
  | .num z => some (.val (.int z))
  | .rat q => some (.val (.real q))
  | .bin _ v => some (.val (.bitvec v))
  | .str s => some (.val (.seq .char s))
  | .const n => some (.val ⟨Γ n, I.const n⟩)
  | .sym s => complete I s []
  | .app f a => (den f).bind fun d => ((den a).bind Den.val?).bind (applyDen I d)

noncomputable def value (t : Term) : Option (Val I.U) := (den I t).bind Den.val?

/-- A formula that is true. -/
def Sat (F : Term) : Prop := value I F = some (.bool true)

variable {s : Sym}

lemma value_uop (hs : s.arity = 1) (a : Term) :
    value I (.uop s a) = (value I a).bind fun v => symVal I s [v] := by
  simp only [value, den, complete, hs]
  cases h : (den I a).bind Den.val? with
  | none => simp
  | some v => cases hv : symVal I s [v] <;> simp [applyDen, complete, hs, hv, Den.val?]

lemma value_bop (hs : s.arity = 2) (a b : Term) : value I (.bop s a b) =
      (value I a).bind fun v => (value I b).bind fun v' => symVal I s [v, v'] := by
  simp only [value, den, complete, hs]
  cases h : (den I a).bind Den.val? with
  | none => simp
  | some v =>
    cases h' : (den I b).bind Den.val? with
    | none => simp [applyDen, complete, hs]
    | some v' => cases hv : symVal I s [v, v'] <;> simp [applyDen, complete, hs, hv, Den.val?]

variable {a t : Term}

lemma value_uop_inv (hs : s.arity = 1) {r : Val I.U}
    (h : value I (.uop s a) = some r) : ∃ v, value I a = some v ∧ symVal I s [v] = some r := by
  rw [value_uop I hs] at h
  exact bind_inv h

lemma value_bop_inv (hs : s.arity = 2) {b : Term} {r : Val I.U}
    (h : value I (.bop s a b) = some r) :
    ∃ v v', value I a = some v ∧ value I b = some v' ∧ symVal I s [v, v'] = some r := by
  rw [value_bop I hs] at h
  obtain ⟨v, hv, h⟩ := bind_inv h
  obtain ⟨v', hv', h⟩ := bind_inv h
  exact ⟨v, v', hv, hv', h⟩

lemma value_top (hs : s.arity = 3) (a b c : Term) : value I (.app (.bop s a b) c) =
      (value I a).bind fun v => (value I b).bind fun v' => (value I c).bind fun v'' =>
        symVal I s [v, v', v''] := by
  simp only [value, den, complete, hs]
  cases h : (den I a).bind Den.val? with
  | none => simp
  | some v =>
    cases h' : (den I b).bind Den.val? with
    | none => simp [applyDen, complete, hs]
    | some v' =>
      cases h'' : (den I c).bind Den.val? with
      | none => simp [applyDen, complete, hs]
      | some v'' =>
        cases hv : symVal I s [v, v', v''] <;>
          simp [applyDen, complete, hs, hv, Den.val?]

@[simp] lemma value_bool (b : Bool) : value I (.bool b) = some (.bool b) := rfl

@[simp] lemma value_num (z : Int) : value I (.num z) = some (.int z) := rfl

@[simp] lemma value_rat (q : Rat) : value I (.rat q) = some (.real q) := rfl

@[simp] lemma value_bin (w : Nat) (v : BitVec w) : value I (.bin w v) = some (.bitvec v) := rfl

@[simp] lemma value_str (l : Str) : value I (.str l) = some (.seq .char l) := rfl

/-! ## Well-typed terms have a value of their type -/

def ArgRel (p : Term × Ty) (v : Val I.U) : Prop := v.1 = p.2 ∧ value I p.1 = some v

/-- What typing yields describes what meaning yields. -/
def DenRel : TyDen → Den I.U → Prop
  | .ty T, .val v => v.1 = T
  | .part s args, .part s' vs => s' = s ∧ Forall₂ (ArgRel I) args vs
  | _, _ => False

variable {vs : List (Val I.U)} {T : Ty}

lemma argRel_one (h : Forall₂ (ArgRel I) [(t, T)] vs) :
    ∃ x, vs = [⟨T, x⟩] ∧ value I t = some ⟨T, x⟩ := by
  cases h with
  | cons h h' =>
    cases h'
    rename_i v
    obtain ⟨T', x⟩ := v
    obtain ⟨rfl, hv⟩ := h
    exact ⟨x, rfl, hv⟩

variable {args : List (Term × Ty)}

lemma argRel_cons (h : Forall₂ (ArgRel I) ((t, T) :: args) vs) :
    ∃ x vs', vs = ⟨T, x⟩ :: vs' ∧ value I t = some ⟨T, x⟩ ∧ Forall₂ (ArgRel I) args vs' := by
  cases h with
  | cons h h' =>
    rename_i v vs'
    obtain ⟨T', x⟩ := v
    obtain ⟨rfl, hv⟩ := h
    exact ⟨x, vs', rfl, hv, h'⟩

lemma argRel_two {t' : Term} {T T' : Ty} (h : Forall₂ (ArgRel I) [(t, T), (t', T')] vs) :
    ∃ x y, vs = [⟨T, x⟩, ⟨T', y⟩] ∧ value I t = some ⟨T, x⟩ ∧ value I t' = some ⟨T', y⟩ := by
  obtain ⟨x, vs', rfl, hx, h'⟩ := argRel_cons I h
  obtain ⟨y, rfl, hy⟩ := argRel_one I h'
  exact ⟨x, y, rfl, hx, hy⟩

private lemma eq_int_of_value_num {i : Int} {x : Dom I.U T}
    (h : value I (.num i) = some ⟨T, x⟩) : (⟨T, x⟩ : Val I.U) = Val.int i := by
  simpa using h.symm

lemma symVal_of_symTy (s : Sym) (hargs : Forall₂ (ArgRel I) args vs) (hT : symTy s args = some T) :
    ∃ x : Dom I.U T, symVal I s vs = some ⟨T, x⟩ := by
  cases s <;> dsimp only [symTy] at hT <;> try contradiction
  case ite =>
    obtain ⟨c, t, t', rfl⟩ := tyIte_inv hT
    obtain ⟨b, vs', rfl, -, h'⟩ := argRel_cons I hargs
    obtain ⟨x, y, rfl, -, -⟩ := argRel_two I h'
    cases b
    · exact ⟨y, by simp [symVal.eq_def, vIte]⟩
    · exact ⟨x, by simp [symVal.eq_def, vIte]⟩
  case not =>
    obtain ⟨t, rfl, rfl⟩ := tyFn1_inv hT
    obtain ⟨x, rfl, -⟩ := argRel_one I hargs
    exact ⟨_, rfl⟩
  case or | and | imp | xor =>
    obtain ⟨t, t', rfl, rfl⟩ := tyFn2_inv hT
    obtain ⟨x, y, rfl, -, -⟩ := argRel_two I hargs
    exact ⟨_, rfl⟩
  case eq =>
    obtain ⟨t, t', S, rfl, rfl⟩ := tyEq_inv hT
    obtain ⟨x, y, rfl, -, -⟩ := argRel_two I hargs
    exact ⟨_, by simp only [symVal.eq_def, vEq, dif_pos]; rfl⟩
  case plus | minus | times | lt | leq | gt | geq | qdiv | qdivTotal =>
    obtain ⟨t, t', S, rfl, rfl | rfl, rfl⟩ := tyArith2_inv hT
    · obtain ⟨x, y, rfl, -, -⟩ := argRel_two I hargs
      exact ⟨_, rfl⟩
    · obtain ⟨x, y, rfl, -, -⟩ := argRel_two I hargs
      exact ⟨_, rfl⟩
  case toReal | abs | uminus =>
    obtain ⟨t, S, rfl, rfl | rfl, rfl⟩ := tyArith1_inv hT
    · obtain ⟨x, rfl, -⟩ := argRel_one I hargs
      exact ⟨_, rfl⟩
    · obtain ⟨x, rfl, -⟩ := argRel_one I hargs
      exact ⟨_, rfl⟩
  case toInt | isInt | intPow2 | intLog2 | intIspow2 | strToRe | strToLower | strToUpper |
      strToCode | strFromCode | strIsDigit | strToInt | strFromInt | reStar | rePlus | reOpt |
      reComp =>
    obtain ⟨t, rfl, rfl⟩ := tyFn1_inv hT
    obtain ⟨x, rfl, -⟩ := argRel_one I hargs
    exact ⟨_, rfl⟩
  case div | mod | divTotal | modTotal | divisible | reConcat | reInter | reUnion | reDiff |
      strLt | strLe | strInRe | rePow | reRange =>
    obtain ⟨t, t', rfl, rfl⟩ := tyFn2_inv hT
    obtain ⟨x, y, rfl, -, -⟩ := argRel_two I hargs
    exact ⟨_, rfl⟩
  case bvsize | bvnot | bvneg | ubvToInt | sbvToInt =>
    obtain ⟨t, w, rfl, rfl⟩ := tyBv1_inv hT
    obtain ⟨x, rfl, -⟩ := argRel_one I hargs
    exact ⟨_, rfl⟩
  case concat =>
    obtain ⟨t, w, t', w', rfl, rfl⟩ := tyConcat_inv hT
    obtain ⟨x, y, rfl, -, -⟩ := argRel_two I hargs
    exact ⟨_, rfl⟩
  case extract =>
    obtain ⟨hi, Th, lo, Tl, t, w, rfl, -, -, -, rfl⟩ := tyExtract_inv hT
    obtain ⟨xh, vs', rfl, hh, h'⟩ := argRel_cons I hargs
    obtain ⟨xl, vs'', rfl, hl, h''⟩ := argRel_cons I h'
    obtain ⟨x, rfl, -⟩ := argRel_one I h''
    rw [eq_int_of_value_num I hh, eq_int_of_value_num I hl]
    exact ⟨_, rfl⟩
  case bvrepeat | zeroExtend | signExtend =>
    obtain ⟨i, S, t, w, rfl, -, rfl⟩ := tyBvIdx_inv hT
    obtain ⟨xi, x, rfl, hi, -⟩ := argRel_two I hargs
    rw [eq_int_of_value_num I hi]
    exact ⟨_, rfl⟩
  case bvand | bvor | bvxor | bvadd | bvmul | bvudiv | bvurem | bvsub | bvult | bvule | bvugt |
      bvuge | bvslt | bvsle | bvsgt | bvsge | bvshl | bvlshr | bvashr | bvxnor | bvcomp | bvumulo |
      bvsmulo | bvultbv | bvsltbv =>
    obtain ⟨t, t', w, rfl, rfl⟩ := tyBv2_inv hT
    obtain ⟨x, y, rfl, -, -⟩ := argRel_two I hargs
    exact ⟨_, by simp only [symVal.eq_def, vBv2, dif_pos]; rfl⟩
  case bvite =>
    obtain ⟨c, t, t', rfl⟩ := tyBvite_inv hT
    obtain ⟨b, vs', rfl, -, h'⟩ := argRel_cons I hargs
    obtain ⟨x, y, rfl, -, -⟩ := argRel_two I h'
    have h := vBvite_eq b x y
    cases hb : getLsbD (w := 1) b 0
    · exact ⟨y, by rw [hb] at h; exact h⟩
    · exact ⟨x, by rw [hb] at h; exact h⟩
  case bit =>
    obtain ⟨i, t, w, rfl, rfl⟩ := tyBit_inv hT
    obtain ⟨x, y, rfl, -, -⟩ := argRel_two I hargs
    exact ⟨_, rfl⟩
  case fromBools =>
    obtain ⟨b, t, w, rfl, rfl⟩ := tyFromBools_inv hT
    obtain ⟨x, y, rfl, -, -⟩ := argRel_two I hargs
    exact ⟨_, rfl⟩
  case bv =>
    obtain ⟨t, w, S, rfl, -, rfl⟩ := tyBvLit_inv hT
    obtain ⟨x, xw, rfl, -, hw⟩ := argRel_two I hargs
    rw [eq_int_of_value_num I hw]
    exact ⟨_, rfl⟩
  case intToBv =>
    obtain ⟨w, S, t, rfl, -, rfl⟩ := tyIntToBv_inv hT
    obtain ⟨xw, x, rfl, hw, -⟩ := argRel_two I hargs
    rw [eq_int_of_value_num I hw]
    exact ⟨_, rfl⟩
  case seqEmpty | reNone | reAll | reAllchar =>
    obtain ⟨rfl, rfl⟩ := tyConst_inv hT
    cases hargs
    exact ⟨_, rfl⟩
  case strConcat =>
    obtain ⟨t, t', S, rfl, rfl⟩ := tySeq2_inv hT
    obtain ⟨x, y, rfl, -, -⟩ := argRel_two I hargs
    exact ⟨_, by simp only [symVal.eq_def, vSeq2, dif_pos]; rfl⟩
  case strReplaceRe | strReplaceReAll | strIndexofRe | reLoop =>
    obtain ⟨t, t', t'', rfl, rfl⟩ := tyFn3_inv hT
    obtain ⟨x, vs', rfl, -, h'⟩ := argRel_cons I hargs
    obtain ⟨y, z, rfl, -, -⟩ := argRel_two I h'
    exact ⟨_, rfl⟩
  case strLen | strRev =>
    obtain ⟨t, S, rfl, rfl⟩ := tySeq1_inv hT
    obtain ⟨x, rfl, -⟩ := argRel_one I hargs
    exact ⟨_, rfl⟩
  case strContains | strPrefixof | strSuffixof =>
    obtain ⟨t, t', S, rfl, rfl⟩ := tySeqRel_inv hT
    obtain ⟨x, y, rfl, -, -⟩ := argRel_two I hargs
    exact ⟨_, by simp only [symVal.eq_def, vSeqRel, dif_pos]; rfl⟩
  case strAt =>
    obtain ⟨t, t', S, rfl, rfl⟩ := tySeqAt_inv hT
    obtain ⟨x, y, rfl, -, -⟩ := argRel_two I hargs
    exact ⟨_, rfl⟩
  case seqNth =>
    obtain ⟨t, t', rfl, -⟩ := tyNth_inv hT
    obtain ⟨x, y, rfl, -, -⟩ := argRel_two I hargs
    exact ⟨_, rfl⟩
  case strSubstr =>
    obtain ⟨t, t', t'', S, rfl, rfl⟩ := tySubstr_inv hT
    obtain ⟨x, vs', rfl, -, h'⟩ := argRel_cons I hargs
    obtain ⟨y, z, rfl, -, -⟩ := argRel_two I h'
    exact ⟨_, rfl⟩
  case strReplace | strReplaceAll =>
    obtain ⟨t, t', t'', S, rfl, rfl⟩ := tySeq3_inv hT
    obtain ⟨x, vs', rfl, -, h'⟩ := argRel_cons I hargs
    obtain ⟨y, z, rfl, -, -⟩ := argRel_two I h'
    exact ⟨_, by simp only [symVal.eq_def, vSeq3, dif_pos]; rfl⟩
  case strIndexof =>
    obtain ⟨t, t', t'', S, rfl, rfl⟩ := tyIndexof_inv hT
    obtain ⟨x, vs', rfl, -, h'⟩ := argRel_cons I hargs
    obtain ⟨y, z, rfl, -, -⟩ := argRel_two I h'
    exact ⟨_, by simp only [symVal.eq_def, vIndexof, dif_pos]; rfl⟩
  case strUpdate =>
    obtain ⟨t, t', t'', S, rfl, rfl⟩ := tyUpdate_inv hT
    obtain ⟨x, vs', rfl, -, h'⟩ := argRel_cons I hargs
    obtain ⟨y, z, rfl, -, -⟩ := argRel_two I h'
    exact ⟨_, by simp only [symVal.eq_def, vUpdate, dif_pos]; rfl⟩
  case seqUnit | purify =>
    obtain ⟨t, S, rfl, -, rfl⟩ := tyAny1_inv hT
    obtain ⟨x, rfl, -⟩ := argRel_one I hargs
    exact ⟨_, rfl⟩

/-- Completing a symbol keeps typing and meaning in step. -/
lemma complete_of_completeTy
    {d : TyDen} (hargs : Forall₂ (ArgRel I) args vs) (hd : completeTy s args = some d) :
    ∃ e, complete I s vs = some e ∧ DenRel I d e := by
  have hlen : args.length = vs.length := hargs.length_eq
  unfold completeTy at hd
  unfold complete
  rw [← hlen]
  split at hd
  · rename_i harity
    obtain ⟨T, hT, rfl⟩ := map_inv hd
    obtain ⟨x, hx⟩ := symVal_of_symTy I s hargs hT
    refine ⟨.val ⟨T, x⟩, ?_, rfl⟩
    rw [if_pos harity, hx]
    rfl
  rename_i harity
  cases hd
  rw [if_neg harity]
  exact ⟨_, rfl, rfl, hargs⟩

/-- Typing describes meaning. -/
lemma den_of_tyDen : ∀ {t : Term} {d : TyDen}, tyDen Γ t = some d →
    ∃ e, den I t = some e ∧ DenRel I d e := by
  intro t
  induction t with
  | bool b => intro d h; cases h; exact ⟨_, rfl, rfl⟩
  | num z => intro d h; cases h; exact ⟨_, rfl, rfl⟩
  | rat q => intro d h; cases h; exact ⟨_, rfl, rfl⟩
  | bin w v => intro d h; cases h; exact ⟨_, rfl, rfl⟩
  | str l => intro d h; cases h; exact ⟨_, rfl, rfl⟩
  | const n => intro d h; cases h; exact ⟨_, rfl, rfl⟩
  | sym s => intro d h; exact complete_of_completeTy I Forall₂.nil h
  | app f a ihf iha =>
    intro d hd
    obtain ⟨df, hf, hd'⟩ := bind_inv hd
    obtain ⟨T, hT, h⟩ := bind_inv hd'
    obtain ⟨da, ha, hda⟩ := bind_inv hT
    obtain ⟨ef, hef, hrelf⟩ := ihf hf
    obtain ⟨ea, hea, hrela⟩ := iha ha
    -- the argument has a value of type `T`
    obtain ⟨x, rfl⟩ : ∃ x : Dom I.U T, ea = .val ⟨T, x⟩ := by
      cases da with
      | part s args => contradiction
      | ty S =>
        cases hda
        cases ea with
        | part s vs => exact hrela.elim
        | val v =>
          obtain ⟨S, x⟩ := v
          cases hrela
          exact ⟨x, rfl⟩
    have hval : value I a = some ⟨T, x⟩ := by rw [value, hea]; rfl
    have hden : den I (.app f a) = applyDen I ef ⟨T, x⟩ := by rw [den, hef, hea]; rfl
    rw [hden]
    cases df with
    | part s args =>
      cases ef with
      | val v => exact hrelf.elim
      | part s' vs =>
        obtain ⟨rfl, hargs⟩ := hrelf
        exact complete_of_completeTy I (List.rel_append hargs (Forall₂.cons ⟨rfl, hval⟩ .nil)) h
    | ty S =>
      cases ef with
      | part s vs => exact hrelf.elim
      | val v =>
        obtain ⟨S', g⟩ := v
        cases hrelf
        cases S' with
        | fn A B =>
          simp only [applyTy] at h
          split at h
          · rename_i hTA
            subst hTA
            cases h
            refine ⟨.val ⟨B, g x⟩, ?_, rfl⟩
            simp only [applyDen, dif_pos]
          · cases h
        | _ => contradiction

lemma value_of_typeof (h : typeof Γ t = some T) : ∃ x : Dom I.U T, value I t = some ⟨T, x⟩ := by
  obtain ⟨d, hd, hT⟩ := bind_inv h
  obtain ⟨e, he, hrel⟩ := den_of_tyDen I hd
  cases d with
  | part s args => contradiction
  | ty S =>
    cases hT
    cases e with
    | part s vs => exact hrel.elim
    | val v =>
      obtain ⟨S, x⟩ := v
      cases hrel
      exact ⟨x, by rw [value, he]; rfl⟩

lemma value_app_fn {f : Term} {A B : Ty} {g : Dom I.U (.fn A B)} {x : Dom I.U A}
    (hf : value I f = some ⟨.fn A B, g⟩) (ha : value I a = some ⟨A, x⟩) :
    value I (.app f a) = some ⟨B, (g : Dom I.U A → Dom I.U B) x⟩ := by
  obtain ⟨e, he, hv⟩ := bind_inv hf
  cases e with
  | part s vs => contradiction
  | val v =>
    cases hv
    have hden : den I (.app f a) = some (.val ⟨B, (g : Dom I.U A → Dom I.U B) x⟩) := by
      rw [den, he, show (den I a).bind Den.val? = some ⟨A, x⟩ from ha]
      simp only [bind_some, applyDen, dif_pos]
    rw [value, hden]
    rfl

/-- An application whose head is a symbol with one argument to go. -/
lemma value_app_part {f : Term} {v : Val I.U}
    (hf : den I f = some (.part s vs)) (hs : vs.length + 1 = s.arity)
    (ha : value I a = some v) : value I (.app f a) = symVal I s (vs ++ [v]) := by
  have hden : den I (.app f a) = (symVal I s (vs ++ [v])).map .val := by
    rw [den, hf, show (den I a).bind Den.val? = some v from ha]
    simp only [bind_some, applyDen, complete, List.length_append, List.length_singleton,
      hs, if_true]
  rw [value, hden]
  cases symVal I s (vs ++ [v]) <;> rfl

end Terms

end EthosCpc
