import EthosCpc.Ethos.Kind
import Mathlib.Data.List.Basic
import Mathlib.Data.Nat.Bitwise
import Mathlib.Order.Lattice
import EthosCpc.Library.Inversion

/-!
# Extraction from literals in Ethos

The case `EVAL_EXTRACT` of `Literal::evaluate`, with `BitVector::extract` and
`String::substr`, and `TypeChecker::checkArity`.

Reading an argument that does not exist is undefined behaviour and a failed
assertion stops the program: both are `none` here.
-/

namespace EthosCpc.Literals

/-! ## Arities -/

def isNaryLiteralOp : Kind → Bool
  | .evalAdd | .evalMul | .evalAnd | .evalOr | .evalXor | .evalConcat => true
  | _ => false

def checkArity (k : Kind) (nargs : Nat) : Bool :=
  match k with
  | .evalIsEq | .evalEq | .evalIntDiv | .evalIntMod | .evalRatDiv | .evalToBin | .evalFind
  | .evalCompare | .evalGt | .evalListLength | .evalListRev | .evalListSetof
  | .evalListSingletonElim | .evalNil => nargs == 2
  | .evalListConcat => nargs == 3
  | .proof | .evalIsOk | .evalTypeOf | .evalNameOf | .evalHash | .evalNot | .evalNeg
  | .evalIsNeg | .evalLength | .evalToInt | .evalToRat | .evalToString | .evalIsZ | .evalIsQ
  | .evalIsBin | .evalIsStr | .evalIsBool | .evalIsVar | .evalDtConstructors
  | .evalDtSelectors => nargs == 1
  | .evalRequires | .evalIfThenElse | .evalCons | .evalListFind | .evalListErase
  | .evalListEraseAll | .evalListNth | .evalListMinclude | .evalListMeq | .evalListDiff
  | .evalListInter => nargs == 3
  | .evalExtract => nargs == 3 || nargs == 2
  | k => isNaryLiteralOp k && nargs == 2

/-! ## Literals -/

/-- `BitVector`: the width is an `unsigned`, and the value has no more bits. -/
structure BitVector where
  size : Nat
  value : Nat
  size_lt : size < 2 ^ 32
  value_lt : value < 2 ^ size

/-- `BitVector(0)`. -/
def BitVector.empty : BitVector := ⟨0, 0, by decide, by decide⟩

/-- The values of literals of each kind.  Strings are lists of code points. -/
inductive Literal
  | boolean (b : Bool) | numeral (z : Int) | decimal (q : Rat) | rational (q : Rat)
  | hexadecimal (b : BitVector) | binary (b : BitVector) | string (s : List Nat)

def BitVector.extract (b : BitVector) (high low : Nat) : Option BitVector :=
  if h : high < b.size ∧ low ≤ high then
    some {
      size := high - low + 1
      value := b.value % 2 ^ (high + 1) / 2 ^ low
      size_lt := by have := b.size_lt; omega
      value_lt := by
        rw [Nat.div_lt_iff_lt_mul (Nat.two_pow_pos low), ← Nat.pow_add]
        exact (Nat.mod_lt _ (Nat.two_pow_pos _)).trans_le
          (Nat.pow_le_pow_right Nat.two_pos (by omega)) }
  else none

/-- `EVAL_EXTRACT` of a binary or hexadecimal literal. -/
def extractBits (b : BitVector) (i1 i2 : Int) : Option BitVector :=
  let dsize : Int := b.size
  if i1 < 0 ∨ i2 < 0 ∨ i1 > dsize ∨ dsize = 0 then some .empty
  else
    let v1 := i1.toNat
    let v2 := if i2 > dsize then b.size - 1 else i2.toNat
    if v1 > v2 then some .empty else b.extract v2 v1

def substr (s : List Nat) (i j : Nat) : Option (List Nat) :=
  if i + j ≤ s.length then some ((s.drop i).take j) else none

/-- `EVAL_EXTRACT` of a string literal. -/
def extractString (s : List Nat) (i1 i2 : Int) : Option (List Nat) :=
  let dsize : Int := s.length
  if i1 < 0 ∨ i2 < 0 ∨ i1 > dsize ∨ dsize = 0 then some []
  else if ¬ (i1 < 2 ^ 32 ∧ dsize < 2 ^ 32) then none
  else
    let v1 := i1.toNat
    let v2 := if i2 ≥ dsize then s.length - 1 else i2.toNat
    substr s v1 (if v2 ≥ v1 then v2 + 1 - v1 else 0)

/-- `Literal::evaluate` for `EVAL_EXTRACT`, which may return the null literal. -/
def evaluateExtract (args : List Literal) : Option (Option Literal) :=
  match (args[1]? : Option Literal) with
  | none => none
  | some (.numeral i1) =>
    match (args[2]? : Option Literal) with
    | none => none
    | some (.numeral i2) =>
      match (args[0]? : Option Literal) with
      | none => none
      | some (.hexadecimal b) => (extractBits b i1 i2).map fun r => some (.hexadecimal r)
      | some (.binary b) => (extractBits b i1 i2).map fun r => some (.binary r)
      | some (.string s) => (extractString s i1 i2).map fun r => some (.string r)
      | some _ => some none
    | some _ => some none
  | some _ => some none

/-! ## The positions that are asked for -/

/-- The positions below `n` from `i` through `j`, in order; none if one of them is negative. -/
def positions (i j : Int) (n : Nat) : List Nat :=
  if i < 0 ∨ j < 0 then [] else (List.range n).filter fun p : Nat => i ≤ p ∧ (p : Int) ≤ j

lemma filter_range (a b n : Nat) :
    (List.range n).filter (fun p : Nat => (a : Int) ≤ p ∧ (p : Int) ≤ b) =
      List.range' a (min (b + 1) n - a) := by
  induction n with
  | zero => simp
  | succ n ih =>
    rw [List.range_succ, List.filter_append, ih]
    by_cases h : a ≤ n ∧ n ≤ b
    · have hlen : min (b + 1) (n + 1) - a = min (b + 1) n - a + 1 := by omega
      have hlast : a + (min (b + 1) n - a) = n := by omega
      rw [hlen, List.range'_1_concat, hlast]
      simp [h.1, h.2]
    have hlen : min (b + 1) (n + 1) - a = min (b + 1) n - a := by omega
    rw [hlen, List.filter_cons_of_neg (by simpa using fun ha => by omega)]
    simp

variable {i j : Int}

lemma positions_of_neg {n : Nat} (h : i < 0 ∨ j < 0) : positions i j n = [] :=
  if_pos h

lemma positions_natCast (a b n : Nat) : positions a b n = List.range' a (min (b + 1) n - a) := by
  rw [positions, if_neg (by omega), filter_range]

def BitVector.bits (b : BitVector) : List Bool := (List.range b.size).map b.value.testBit

/-- `r` has exactly the bits of `b` at the positions that are asked for. -/
def IsExtract (b : BitVector) (i j : Int) (r : BitVector) : Prop :=
  r.size = (positions i j b.size).length ∧ r.bits = (positions i j b.size).map b.value.testBit

/-- What the extraction from the literal of the arguments is to return. -/
def Expected (l : Literal) (i j : Int) : Option Literal → Prop
  | some (.hexadecimal r) => ∃ b, l = .hexadecimal b ∧ IsExtract b i j r
  | some (.binary r) => ∃ b, l = .binary b ∧ IsExtract b i j r
  | some (.string r) => ∃ s, l = .string s ∧ r = (positions i j s.length).filterMap (s[·]?)
  | some _ => False
  | none => ∀ b s, l ≠ .hexadecimal b ∧ l ≠ .binary b ∧ l ≠ .string s

/-- Only arguments that exist are read, no assertion fails, and the result is exact. -/
def Exact (args : List Literal) : Prop :=
  ∃ r, evaluateExtract args = some r ∧
    ∀ l i j, args = [l, .numeral i, .numeral j] → Expected l i j r

/-! ## Bits and characters -/

lemma isExtract_empty {b : BitVector} (h : positions i j b.size = []) : IsExtract b i j .empty := by
  unfold IsExtract
  rw [h]
  exact ⟨rfl, rfl⟩

variable {b r : BitVector}

lemma isExtract_extract {high low : Nat}
    (h : b.extract high low = some r) : IsExtract b low high r := by
  unfold BitVector.extract at h
  split at h
  swap
  · cases h
  rename_i hlt
  cases h
  have hlen : min (high + 1) b.size - low = high - low + 1 := by omega
  refine ⟨?_, ?_⟩
  · rw [positions_natCast, List.length_range', hlen]
  rw [positions_natCast, hlen, List.range'_eq_map_range, List.map_map]
  refine List.map_congr_left fun k hk => ?_
  have hk : low + k < high + 1 := by
    have : k < high - low + 1 := List.mem_range.1 hk
    omega
  show (b.value % 2 ^ (high + 1) / 2 ^ low).testBit k = b.value.testBit (low + k)
  rw [← Nat.shiftRight_eq_div_pow, Nat.testBit_shiftRight, Nat.testBit_mod_two_pow]
  simp [hk]

lemma exists_extract {b : BitVector} {high low : Nat} (hhigh : high < b.size)
    (hlow : low ≤ high) : ∃ r, b.extract high low = some r :=
  ⟨_, dif_pos ⟨hhigh, hlow⟩⟩

lemma extractBits_exact_iff (b : BitVector) (i j : Int) :
    (∃ r, extractBits b i j = some r ∧ IsExtract b i j r) ↔
      ¬ (0 ≤ i ∧ i ≤ b.size ∧ j = b.size ∧ b.size ≠ 0) := by
  by_cases hneg : i < 0 ∨ j < 0
  · refine iff_of_true ⟨_, if_pos (by tauto), isExtract_empty (positions_of_neg hneg)⟩ ?_
    omega
  obtain ⟨a, rfl⟩ := Int.eq_ofNat_of_zero_le (show 0 ≤ i by omega)
  obtain ⟨c, rfl⟩ := Int.eq_ofNat_of_zero_le (show 0 ≤ j by omega)
  by_cases hout : b.size < a ∨ b.size = 0
  · refine iff_of_true ⟨_, if_pos (by omega), isExtract_empty ?_⟩ (by omega)
    rw [positions_natCast, show min (c + 1) b.size - a = 0 by omega]
    rfl
  have hrun : extractBits b a c = if a > (if (c : Int) > b.size then b.size - 1 else c) then
      some .empty else b.extract (if (c : Int) > b.size then b.size - 1 else c) a :=
    if_neg (by omega)
  rw [hrun]
  rcases lt_trichotomy c b.size with hlt | heq | hgt
  · -- the upper index is a position
    rw [if_neg (show ¬ (c : Int) > b.size by omega)]
    refine iff_of_true ?_ (by omega)
    by_cases hac : a > c
    · refine ⟨_, if_pos hac, isExtract_empty ?_⟩
      rw [positions_natCast, show min (c + 1) b.size - a = 0 by omega]
      rfl
    · obtain ⟨r, hr⟩ := exists_extract hlt (not_lt.1 hac)
      exact ⟨r, (if_neg hac).trans hr, isExtract_extract hr⟩
  · -- the upper index is the width, and the assertion of `extract` fails
    rw [if_neg (show ¬ (c : Int) > b.size by omega), if_neg (show ¬ a > c by omega)]
    refine iff_of_false ?_ (by omega)
    rintro ⟨r, hr, -⟩
    unfold BitVector.extract at hr
    rw [dif_neg (by omega)] at hr
    contradiction
  -- the upper index is larger than the width
  rw [if_pos (show (c : Int) > b.size by omega)]
  refine iff_of_true ?_ (by omega)
  have hpos : positions a c b.size = positions a (b.size - 1 : Nat) b.size := by
    rw [positions_natCast, positions_natCast]
    congr 1
    omega
  by_cases hac : a > b.size - 1
  · refine ⟨_, if_pos hac, isExtract_empty ?_⟩
    rw [positions_natCast, show min (c + 1) b.size - a = 0 by omega]
    rfl
  obtain ⟨r, hr⟩ := exists_extract (b := b) (show b.size - 1 < b.size by omega)
    (not_lt.1 hac)
  refine ⟨r, (if_neg hac).trans hr, ?_⟩
  unfold IsExtract
  rw [hpos]
  exact isExtract_extract hr

lemma filterMap_range' (s : List Nat) (a k : Nat) (h : a + k ≤ s.length) :
    (List.range' a k).filterMap (s[·]?) = (s.drop a).take k := by
  induction k with
  | zero => simp
  | succ k ih =>
    rw [List.range'_1_concat, List.filterMap_append, ih (by omega), List.take_add_one,
      List.getElem?_drop, List.getElem?_eq_getElem (show a + k < s.length by omega)]
    simp [List.getElem?_eq_getElem (show a + k < s.length by omega)]

lemma extractString_exact_iff (s : List Nat) (i j : Int) :
    (∃ r, extractString s i j = some r ∧ r = (positions i j s.length).filterMap (s[·]?)) ↔
      s.length < 2 ^ 32 ∨ i < 0 ∨ j < 0 ∨ i > s.length := by
  by_cases hneg : i < 0 ∨ j < 0
  · refine iff_of_true ⟨_, if_pos (by tauto), ?_⟩ (by tauto)
    rw [positions_of_neg hneg]
    rfl
  obtain ⟨a, rfl⟩ := Int.eq_ofNat_of_zero_le (show 0 ≤ i by omega)
  obtain ⟨c, rfl⟩ := Int.eq_ofNat_of_zero_le (show 0 ≤ j by omega)
  rw [positions_natCast]
  by_cases hout : s.length < a ∨ s.length = 0
  · refine iff_of_true ⟨_, if_pos (by omega), ?_⟩ (by omega)
    rw [show min (c + 1) s.length - a = 0 by omega]
    rfl
  by_cases hlong : s.length < 2 ^ 32
  · refine iff_of_true ?_ (.inl hlong)
    have hrun : extractString s a c = substr s a
        (if (if (c : Int) ≥ s.length then s.length - 1 else c) ≥ a then
          (if (c : Int) ≥ s.length then s.length - 1 else c) + 1 - a else 0) := by
      refine (if_neg (by omega)).trans (if_neg ?_)
      omega
    have hcount : (if (if (c : Int) ≥ s.length then s.length - 1 else c) ≥ a then
          (if (c : Int) ≥ s.length then s.length - 1 else c) + 1 - a else 0) =
        min (c + 1) s.length - a := by
      split <;> split <;> omega
    rw [hrun, hcount, substr, if_pos (by omega)]
    exact ⟨_, rfl, (filterMap_range' s a _ (by omega)).symm⟩
  · refine iff_of_false ?_ (by omega)
    rintro ⟨r, hr, -⟩
    have hrun : extractString s a c = none := (if_neg (by omega)).trans (if_pos (by omega))
    rw [hrun] at hr
    contradiction

/-! ## All argument lists -/

/-- There are three arguments if the second one is a numeral, the upper index is not the width of
a bit-vector that is not empty and reached from the lower index, and the length of a string fits
into 32 bits unless the indices are out of range. -/
def ExtractOk : List Literal → Prop
  | [_, .numeral _] => False
  | [.hexadecimal b, .numeral i, .numeral j] | [.binary b, .numeral i, .numeral j] =>
    ¬ (0 ≤ i ∧ i ≤ b.size ∧ j = b.size ∧ b.size ≠ 0)
  | [.string s, .numeral i, .numeral j] =>
    s.length < 2 ^ 32 ∨ i < 0 ∨ j < 0 ∨ i > s.length
  | _ => True

lemma expected_hexadecimal :
    Expected (.hexadecimal b) i j (some (.hexadecimal r)) ↔ IsExtract b i j r := by
  refine ⟨?_, fun h => ⟨b, rfl, h⟩⟩
  rintro ⟨_, heq, h⟩
  cases heq
  exact h

lemma expected_binary : Expected (.binary b) i j (some (.binary r)) ↔ IsExtract b i j r := by
  refine ⟨?_, fun h => ⟨b, rfl, h⟩⟩
  rintro ⟨_, heq, h⟩
  cases heq
  exact h

lemma expected_string {s r : List Nat} : Expected (.string s) i j (some (.string r)) ↔
      r = (positions i j s.length).filterMap (s[·]?) := by
  refine ⟨?_, fun h => ⟨s, rfl, h⟩⟩
  rintro ⟨_, heq, h⟩
  cases heq
  exact h

lemma exists_map_iff {α β : Type} {o : Option α} {f : α → β} {p : β → Prop} {q : α → Prop}
    (h : ∀ v, p (f v) ↔ q v) : (∃ r, o.map f = some r ∧ p r) ↔ ∃ v, o = some v ∧ q v := by
  constructor
  · rintro ⟨r, hr, hp⟩
    obtain ⟨v, hv, rfl⟩ := map_inv hr
    exact ⟨v, hv, (h v).1 hp⟩
  · rintro ⟨v, rfl, hq⟩
    exact ⟨f v, rfl, (h v).2 hq⟩

/-- With three arguments, it is the result for these that counts. -/
lemma exact_iff_expected {l : Literal} : Exact [l, .numeral i, .numeral j] ↔
      ∃ r, evaluateExtract [l, .numeral i, .numeral j] = some r ∧ Expected l i j r := by
  constructor
  · rintro ⟨r, hr, h⟩
    exact ⟨r, hr, h l i j rfl⟩
  rintro ⟨r, hr, h⟩
  refine ⟨r, hr, fun l' i' j' heq => ?_⟩
  cases heq
  exact h

lemma exact_of_returns {args : List Literal} {r : Option Literal}
    (hr : evaluateExtract args = some r)
    (hargs : ∀ l i j, args ≠ [l, .numeral i, .numeral j]) : Exact args :=
  ⟨r, hr, fun l i j heq => absurd heq (hargs l i j)⟩

/-- For every list of arguments whose length is accepted, `EVAL_EXTRACT` reads only arguments that
exist and is exact if and only if the arguments meet the condition. -/
theorem evaluateExtract_exact_iff {args : List Literal}
    (harity : checkArity .evalExtract args.length = true) : Exact args ↔ ExtractOk args := by
  have hlength : args.length = 3 ∨ args.length = 2 := by simpa [checkArity] using harity
  rcases hlength with hlength | hlength
  · obtain ⟨l, x, y, rfl⟩ := List.length_eq_three.1 hlength
    cases x with
    | numeral i =>
      cases y with
      | numeral j =>
        rw [exact_iff_expected]
        cases l with
        | hexadecimal b => exact (exists_map_iff fun _ => expected_hexadecimal).trans (extractBits_exact_iff b i j)
        | binary b => exact (exists_map_iff fun _ => expected_binary).trans (extractBits_exact_iff b i j)
        | string s => exact (exists_map_iff fun _ => expected_string).trans (extractString_exact_iff s i j)
        | _ => exact iff_of_true ⟨none, rfl, by simp [Expected]⟩ trivial
      | _ => exact iff_of_true (exact_of_returns rfl (by simp)) (by simp [ExtractOk])
    | _ => exact iff_of_true (exact_of_returns rfl (by simp)) (by simp [ExtractOk])
  obtain ⟨l, x, rfl⟩ := List.length_eq_two.1 hlength
  cases x with
  | numeral i =>
    -- the third argument is read, and there is none
    refine iff_of_false ?_ (by simp [ExtractOk])
    rintro ⟨r, hr, -⟩
    contradiction
  | _ => exact iff_of_true (exact_of_returns rfl (by simp)) (by simp [ExtractOk])

/-- The lowest three bits of `#b1010`. -/
theorem evaluateExtract_exact_iff_bits :
    Exact [.binary ⟨4, 10, by decide, by decide⟩, .numeral 0, .numeral 2] :=
  (evaluateExtract_exact_iff (by decide)).2 (by simp [ExtractOk])

/-- With the width as the upper index the assertion of `BitVector::extract` fails, and with two
arguments the third one is read. -/
theorem evaluateExtract_not_exact :
    ¬ (∀ args, checkArity .evalExtract args.length = true → Exact args) ∧
      ¬ Exact [.binary ⟨4, 10, by decide, by decide⟩, .numeral 0, .numeral 4] ∧
      ¬ Exact [.binary ⟨4, 10, by decide, by decide⟩, .numeral 0] := by
  have hwidth : ¬ Exact [.binary ⟨4, 10, by decide, by decide⟩, .numeral 0, .numeral 4] := by
    rintro ⟨r, hr, -⟩
    exact absurd hr (by simp [evaluateExtract, extractBits, BitVector.extract])
  refine ⟨fun h => hwidth (h _ (by decide)), hwidth, ?_⟩
  rintro ⟨r, hr, -⟩
  contradiction

end EthosCpc.Literals
