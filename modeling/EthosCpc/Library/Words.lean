import Mathlib.Data.List.Infix

/-!
# Words

The operations of the SMT-LIB theory of strings on finite words over any
alphabet: extraction, search, replacement and update.  A position is an
integer, as in the theory, and every operation is total: what lies outside
the word is empty.

`find` is the one search everything else is defined by.  `find_eq_some`
and `find_eq_none` say what it computes, and the other modules use only
these two facts about it.
-/

namespace EthosCpc.Library.Words

variable {α : Type*}

/-! ## Extraction -/

/-- The `m` letters of a word from position `n` on, as far as there are any. -/
def substr (s : List α) (n m : Int) : List α :=
  if 0 ≤ n ∧ n < s.length ∧ 0 < m then (s.drop n.toNat).take m.toNat else []

/-- A word with its letters from position `n` on replaced by those of `t`.
The length does not change. -/
def update (s : List α) (n : Int) (t : List α) : List α :=
  if 0 ≤ n ∧ n < s.length then
    s.take n.toNat ++ (t.take (s.length - n.toNat) ++ s.drop (n.toNat + t.length))
  else s

lemma substr_zero (s : List α) (n : Int) : substr s 0 n = s.take n.toNat := by
  unfold substr
  split
  · rw [Int.toNat_zero, List.drop_zero]
  rename_i h
  rcases s with _ | ⟨c, s⟩
  · exact List.take_nil.symm
  have hn : n.toNat = 0 := by
    simp only [List.length_cons] at h
    omega
  rw [hn, List.take_zero]

lemma substr_rest (s : List α) {n : Int} (hn : 0 ≤ n) :
    substr s n (s.length - n) = s.drop n.toNat := by
  unfold substr
  split
  · apply List.take_of_length_le
    rw [List.length_drop]
    omega
  · rw [List.drop_of_length_le]
    omega

lemma substr_of_neg (s : List α) {n : Int} (hn : n < 0) (m : Int) : substr s n m = [] :=
  if_neg fun h => absurd h.1 (by omega)

/-- The number of letters that are there. -/
lemma length_substr_of_nonneg (s : List α) {n m : Int} (hn : 0 ≤ n) :
    ((substr s n m).length : Int) = max 0 (min m (s.length - n)) := by
  unfold substr
  split
  · rw [List.length_take, List.length_drop]
    omega
  · rw [List.length_nil]
    omega

/-! ## Search -/

section Find

variable [DecidableEq α]

/-- Position of the first occurrence of `t`. -/
def find (t : List α) : List α → Option Nat
  | [] => if t = [] then some 0 else none
  | c :: s => if t <+: c :: s then some 0 else (find t s).map (· + 1)

/-- The first occurrence of `t` from position `n` on, `-1` where there is none. -/
def indexof (s t : List α) (n : Int) : Int :=
  if 0 ≤ n ∧ n ≤ s.length then
    match find t (s.drop n.toNat) with
    | some i => n + i
    | none => -1
  else -1

/-- The first occurrence of `t` replaced by `u`. -/
def replace (s t u : List α) : List α :=
  match find t s with
  | some i => s.take i ++ (u ++ s.drop (i + t.length))
  | none => s

/-- All occurrences of `t` replaced from left to right, at most `k` of them. -/
def replaceAllFrom (t u : List α) : Nat → List α → List α
  | 0, s => s
  | k + 1, s =>
    match find t s with
    | some i => s.take i ++ (u ++ replaceAllFrom t u k (s.drop (i + t.length)))
    | none => s

/-- All occurrences of `t` replaced by `u`; the empty word occurs nowhere. -/
def replaceAll (s t u : List α) : List α :=
  if t = [] then s else replaceAllFrom t u s.length s

variable {t s : List α}

lemma find_of_prefix (h : t <+: s) : find t s = some 0 := by
  cases s with
  | nil => exact if_pos (List.prefix_nil.1 h)
  | cons c s => exact if_pos h

/-- The search returns the first position where `t` occurs. -/
lemma find_eq_some {i : Nat} :
    find t s = some i ↔ i ≤ s.length ∧ t <+: s.drop i ∧ ∀ j < i, ¬ t <+: s.drop j := by
  induction s generalizing i with
  | nil =>
    rw [find]
    by_cases ht : t = []
    swap
    · rw [if_neg ht]
      simp [ht]
    rw [if_pos ht, Option.some.injEq]
    constructor
    · rintro rfl
      exact ⟨le_rfl, by simp [ht], fun j hj => absurd hj (Nat.not_lt_zero j)⟩
    · rintro ⟨hle, -, -⟩
      exact (Nat.le_zero.1 hle).symm
  | cons c s ih =>
    rw [find]
    by_cases hp : t <+: c :: s
    · rw [if_pos hp, Option.some.injEq]
      constructor
      · rintro rfl
        exact ⟨Nat.zero_le _, hp, fun j hj => absurd hj (Nat.not_lt_zero j)⟩
      rintro ⟨-, -, hmin⟩
      by_contra hne
      exact hmin 0 (by omega) hp
    rw [if_neg hp, Option.map_eq_some_iff]
    constructor
    · rintro ⟨k, hk, rfl⟩
      obtain ⟨hle, hpre, hmin⟩ := ih.1 hk
      refine ⟨by simpa using hle, hpre, fun j hj => ?_⟩
      cases j with
      | zero => exact hp
      | succ j => exact hmin j (by omega)
    rintro ⟨hle, hpre, hmin⟩
    cases i with
    | zero => exact absurd hpre hp
    | succ i =>
      refine ⟨i, ih.2 ⟨by simpa using hle, hpre, fun j hj => ?_⟩, rfl⟩
      exact hmin (j + 1) (by omega)

/-- The search fails exactly for words that do not occur. -/
lemma find_eq_none : find t s = none ↔ ¬ t <:+: s := by
  induction s with
  | nil =>
    rw [find]
    by_cases ht : t = []
    · simp [ht]
    · simp [ht]
  | cons c s ih =>
    rw [find]
    by_cases hp : t <+: c :: s
    · simp [if_pos hp, hp.isInfix]
    · rw [if_neg hp, Option.map_eq_none_iff, ih, List.infix_cons_iff]
      simp [hp]

lemma find_isSome : (find t s).isSome ↔ t <:+: s := by
  rw [← not_iff_not, ← find_eq_none]
  cases find t s <;> simp

lemma replace_of_not_infix {s t : List α} (h : ¬ t <:+: s) (u : List α) : replace s t u = s := by
  unfold replace
  rw [find_eq_none.2 h]

lemma length_replace {s t : List α} (h : t <:+: s) (u : List α) :
    (replace s t u).length + t.length = s.length + u.length := by
  obtain ⟨i, hi⟩ := Option.isSome_iff_exists.1 (find_isSome.2 h)
  obtain ⟨hle, hpre, _⟩ := find_eq_some.1 hi
  have hlen := hpre.length_le
  rw [List.length_drop] at hlen
  simp only [replace, hi, List.length_append, List.length_take, List.length_drop]
  omega

lemma neg_one_le_indexof (s t : List α) (n : Int) : -1 ≤ indexof s t n := by
  unfold indexof
  split
  · split <;> omega
  · exact Int.le_refl (-1)

/-- Where a word is found, it fits. -/
lemma indexof_add_length_le (s t : List α) (n : Int) :
    indexof s t n = -1 ∨ indexof s t n + t.length ≤ s.length := by
  unfold indexof
  split
  swap
  · exact .inl rfl
  split
  swap
  · exact .inl rfl
  rename_i i hi
  obtain ⟨hle, hpre, _⟩ := find_eq_some.1 hi
  have hlen := hpre.length_le
  simp only [List.length_drop] at hle hlen
  omega

end Find

end EthosCpc.Library.Words
