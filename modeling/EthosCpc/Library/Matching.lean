import Mathlib.Computability.MyhillNerode
import EthosCpc.Library.Inversion

/-!
# Matches of a language in a word

A match of a language in a word is an occurrence of one of its members.
The SMT-LIB operators that search for a regular expression take the
leftmost match and among those the shortest one.  `firstMatch` computes it
as the pair of its end points, and `firstMatch_eq_some` characterises it.
-/

namespace EthosCpc.Library

variable {α : Type*} {L : Language α}

open Classical in
noncomputable def shortestPrefix (L : Language α) : List α → Option Nat
  | [] => if [] ∈ L then some 0 else none
  | c :: s =>
    if [] ∈ L then some 0 else (shortestPrefix (L.leftQuotient [c]) s).map (· + 1)

/-- The start and the end of the leftmost, then shortest, match. -/
noncomputable def firstMatch (L : Language α) : List α → Option (Nat × Nat)
  | [] => (shortestPrefix L []).map fun k => (0, k)
  | c :: s =>
    match shortestPrefix L (c :: s) with
    | some k => some (0, k)
    | none => (firstMatch L s).map fun p => (p.1 + 1, p.2 + 1)

/-- The first match from position `n` on, `-1` where there is none. -/
noncomputable def indexofRe (s : List α) (L : Language α) (n : Int) : Int :=
  if 0 ≤ n ∧ n ≤ s.length then
    match firstMatch L (s.drop n.toNat) with
    | some p => n + p.1
    | none => -1
  else -1

/-- The first match replaced by `t`. -/
noncomputable def replaceRe (s : List α) (L : Language α) (t : List α) : List α :=
  match firstMatch L s with
  | some p => s.take p.1 ++ (t ++ s.drop p.2)
  | none => s

/-- Matches replaced from left to right, at most `k` of them. -/
noncomputable def replaceReAllFrom (L : Language α) (t : List α) : Nat → List α → List α
  | 0, s => s
  | k + 1, s =>
    match firstMatch L s with
    | some p => s.take p.1 ++ (t ++ replaceReAllFrom L t k (s.drop p.2))
    | none => s

/-- All matches that are not empty replaced by `t`, each the shortest one. -/
noncomputable def replaceReAll (s : List α) (L : Language α) (t : List α) : List α :=
  replaceReAllFrom (L \ {[]} : Set (List α)) t s.length s

variable {s : List α}

lemma shortestPrefix_eq_some {k : Nat} : shortestPrefix L s = some k ↔
      k ≤ s.length ∧ s.take k ∈ L ∧ ∀ j < k, s.take j ∉ L := by
  induction s generalizing L k with
  | nil =>
    rw [shortestPrefix]
    by_cases h : [] ∈ L
    swap
    · rw [if_neg h]
      simp [h]
    rw [if_pos h, Option.some.injEq]
    constructor
    · rintro rfl
      exact ⟨le_rfl, h, fun j hj => absurd hj (Nat.not_lt_zero j)⟩
    · rintro ⟨hk, -, -⟩
      exact (Nat.le_zero.1 hk).symm
  | cons c s ih =>
    rw [shortestPrefix]
    by_cases h : [] ∈ L
    · rw [if_pos h, Option.some.injEq]
      constructor
      · rintro rfl
        exact ⟨Nat.zero_le _, h, fun j hj => absurd hj (Nat.not_lt_zero j)⟩
      rintro ⟨-, -, hmin⟩
      by_contra hne
      exact hmin 0 (by omega) h
    rw [if_neg h, Option.map_eq_some_iff]
    constructor
    · rintro ⟨j, hj, rfl⟩
      obtain ⟨hle, hmem, hmin⟩ := ih.1 hj
      refine ⟨by simpa using hle, hmem, fun i hi => ?_⟩
      cases i with
      | zero => exact h
      | succ i => exact hmin i (by omega)
    rintro ⟨hle, hmem, hmin⟩
    cases k with
    | zero => exact absurd hmem h
    | succ k =>
      refine ⟨k, ih.2 ⟨by simpa using hle, hmem, fun j hj => ?_⟩, rfl⟩
      exact hmin (j + 1) (by omega)

lemma shortestPrefix_eq_none : shortestPrefix L s = none ↔ ∀ p, p <+: s → p ∉ L := by
  induction s generalizing L with
  | nil =>
    rw [shortestPrefix]
    by_cases h : [] ∈ L <;> simp [h]
  | cons c s ih =>
    rw [shortestPrefix]
    by_cases h : [] ∈ L
    · rw [if_pos h]
      exact ⟨fun hne => by contradiction, fun hall => absurd h (hall [] List.nil_prefix)⟩
    rw [if_neg h, Option.map_eq_none_iff, ih]
    constructor
    · intro hall p hp
      cases p with
      | nil => exact h
      | cons d p =>
        obtain ⟨rfl, hps⟩ := List.cons_prefix_cons.1 hp
        exact hall p hps
    · intro hall p hp
      exact hall (c :: p) (List.cons_prefix_cons.2 ⟨rfl, hp⟩)

/-! ## The first match -/

/-- The letters from `i` to `j` are the leftmost, then shortest, match. -/
structure IsFirstMatch (L : Language α) (s : List α) (i j : Nat) : Prop where
  le : i ≤ j
  le_length : j ≤ s.length
  mem : (s.drop i).take (j - i) ∈ L
  leftmost : ∀ k < i, ∀ p, p <+: s.drop k → p ∉ L
  shortest : ∀ k < j - i, (s.drop i).take k ∉ L

lemma IsFirstMatch.cons {i j : Nat} {a : α} (h : IsFirstMatch L s i j)
    (ha : ∀ p, p <+: a :: s → p ∉ L) : IsFirstMatch L (a :: s) (i + 1) (j + 1) where
  le := Nat.succ_le_succ h.le
  le_length := Nat.succ_le_succ h.le_length
  mem := by simpa using h.mem
  leftmost := by
    intro k hk
    cases k with
    | zero => exact ha
    | succ k => exact h.leftmost k (by omega)
  shortest := by simpa using h.shortest

lemma isFirstMatch_of_shortestPrefix {k : Nat} (h : shortestPrefix L s = some k) :
    IsFirstMatch L s 0 k := by
  obtain ⟨hle, hmem, hmin⟩ := shortestPrefix_eq_some.1 h
  exact ⟨Nat.zero_le k, hle, hmem, fun j hj => absurd hj (Nat.not_lt_zero j), hmin⟩

lemma isFirstMatch_of_firstMatch {p : Nat × Nat} (h : firstMatch L s = some p) :
    IsFirstMatch L s p.1 p.2 := by
  induction s generalizing p with
  | nil =>
    obtain ⟨k, hk, rfl⟩ := map_inv h
    exact isFirstMatch_of_shortestPrefix hk
  | cons a s ih =>
    rw [firstMatch] at h
    split at h
    · rename_i k hk
      cases h
      exact isFirstMatch_of_shortestPrefix hk
    rename_i hnone
    obtain ⟨q, hq, rfl⟩ := map_inv h
    exact (ih hq).cons (shortestPrefix_eq_none.1 hnone)

lemma no_match_of_firstMatch (h : firstMatch L s = none) (k : Nat) :
    ∀ p, p <+: s.drop k → p ∉ L := by
  induction s generalizing k with
  | nil =>
    rw [firstMatch, Option.map_eq_none_iff, shortestPrefix_eq_none] at h
    rw [List.drop_nil]
    exact h
  | cons a s ih =>
    rw [firstMatch] at h
    split at h
    · cases h
    rename_i hnone
    cases k with
    | zero => exact shortestPrefix_eq_none.1 hnone
    | succ k => exact ih (Option.map_eq_none_iff.1 h) k

/-! ## Derivatives -/

section Derivatives

open Computability

variable (L M : Language α) (c : α)

lemma leftQuotient_zero : (0 : Language α).leftQuotient [c] = 0 := rfl

lemma leftQuotient_compl : Lᶜ.leftQuotient [c] = (L.leftQuotient [c])ᶜ := rfl

/-- A word of a product starts in the first factor, or the first factor is skipped. -/
lemma cons_mem_mul {w : List α} :
    c :: w ∈ L * M ↔ w ∈ L.leftQuotient [c] * M ∨ [] ∈ L ∧ c :: w ∈ M := by
  constructor
  · rintro ⟨u, hu, v, hv, huv⟩
    cases u with
    | nil =>
      obtain rfl : v = c :: w := huv
      exact .inr ⟨hu, hv⟩
    | cons d u =>
      obtain ⟨rfl, rfl⟩ := List.cons.inj huv
      exact .inl ⟨u, hu, v, hv, rfl⟩
  · rintro (⟨u, hu, v, hv, rfl⟩ | ⟨hnil, hw⟩)
    · exact ⟨c :: u, hu, v, hv, rfl⟩
    · exact ⟨[], hnil, c :: w, hw, rfl⟩

lemma leftQuotient_mul_of_nil_mem (h : [] ∈ L) :
    (L * M).leftQuotient [c] = M.leftQuotient [c] + L.leftQuotient [c] * M := by
  ext w
  show c :: w ∈ L * M ↔ c :: w ∈ M ∨ w ∈ L.leftQuotient [c] * M
  rw [cons_mem_mul]
  simp [h, or_comm]

lemma leftQuotient_mul_of_nil_notMem (h : [] ∉ L) :
    (L * M).leftQuotient [c] = L.leftQuotient [c] * M := by
  ext w
  show c :: w ∈ L * M ↔ w ∈ L.leftQuotient [c] * M
  rw [cons_mem_mul]
  simp [h]

lemma leftQuotient_kstar : (L∗).leftQuotient [c] = L.leftQuotient [c] * L∗ := by
  ext w
  show c :: w ∈ L∗ ↔ w ∈ L.leftQuotient [c] * L∗
  constructor
  · intro h
    obtain ⟨S, hS, hmem⟩ := Language.mem_kstar_iff_exists_nonempty.1 h
    cases S with
    | nil => simp at hS
    | cons u S =>
      obtain ⟨hu, hne⟩ := hmem u (.head _)
      cases u with
      | nil => exact absurd rfl hne
      | cons d u =>
        obtain ⟨rfl, rfl⟩ := List.cons.inj hS
        refine ⟨u, hu, S.flatten, ?_, rfl⟩
        exact Language.join_mem_kstar fun v hv => (hmem v (.tail _ hv)).1
  · rintro ⟨u, hu, v, hv, rfl⟩
    obtain ⟨S, rfl, hS⟩ := Language.mem_kstar.1 hv
    refine Language.mem_kstar.2 ⟨(c :: u) :: S, rfl, fun y hy => ?_⟩
    rcases List.mem_cons.1 hy with rfl | hy
    · exact hu
    · exact hS y hy

end Derivatives

end EthosCpc.Library
