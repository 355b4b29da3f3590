import EthosCpc.Library.Words

/-!
# Overlaps of words

Two words are comparable when one is a prefix of the other, that is, when
both can begin the same word.  A word overlaps another one at a position
when what follows the position is comparable with the other word.  If there
is no overlap up to some position, then an occurrence of the other word
cannot begin before it.
-/

namespace EthosCpc.Library

open List (append_assoc append_nil drop_append drop_append_of_le_length drop_left nil_append
  prefix_append)

variable {α : Type*} {p u v u' v' w s t : List α}

/-- One of the words is a prefix of the other. -/
def Comparable (u v : List α) : Prop := u <+: v ∨ v <+: u

lemma Comparable.symm (h : Comparable u v) : Comparable v u := Or.symm h

lemma comparable_of_isPrefix (hu : u <+: w) (hv : v <+: w) : Comparable u v :=
  List.prefix_or_prefix_of_prefix hu hv

lemma comparable_append_left : Comparable (p ++ u) (p ++ v) ↔ Comparable u v := by
  unfold Comparable
  rw [List.prefix_append_right_inj, List.prefix_append_right_inj]

lemma Comparable.of_append (h : Comparable (u ++ u') (v ++ v')) : Comparable u v := by
  rcases h with h | h
  · exact comparable_of_isPrefix ((prefix_append u u').trans h) (prefix_append v v')
  · exact comparable_of_isPrefix (prefix_append u u') ((prefix_append v v').trans h)

lemma comparable_nil_left : Comparable [] v := .inl (List.nil_prefix)

lemma not_comparable_singleton {a b : α} (h : a ≠ b) : ¬ Comparable [a] [b] := by
  rintro (hp | hp)
  · exact h (List.cons_prefix_cons.1 hp).1
  · exact h (List.cons_prefix_cons.1 hp).1.symm

/-- There is no overlap of `t` with what follows the first `n` positions of `s`. -/
def NoOverlap (s t : List α) (n : Nat) : Prop := ∀ i < n, ¬ Comparable (s.drop i) t

lemma drop_prefix_of_append (h : u ++ v <+: w) : v <+: w.drop u.length := by
  obtain ⟨z, rfl⟩ := h
  rw [append_assoc, drop_left]
  exact prefix_append v z

lemma drop_prefix (i : Nat) (h : u <+: w) (hi : i ≤ u.length) : u.drop i <+: w.drop i := by
  obtain ⟨z, rfl⟩ := h
  rw [drop_append_of_le_length hi]
  exact prefix_append _ z

variable {n : Nat}

/-- A non-empty word in front of `t` is at least as long as the part of `c :: s` that `t`
does not overlap. -/
lemma take_prefix_of_noOverlap {c : α} (ht : u ++ t <+: w) (hs : c :: s <+: w)
    (hu : u ≠ []) (hn : n ≤ s.length) (hno : NoOverlap s t n) : (c :: s).take (n + 1) <+: u := by
  have hlen : (List.take (n + 1) (c :: s)).length = n + 1 := by
    rw [List.length_take, List.length_cons]
    omega
  have hpos : 0 < u.length := List.length_pos_of_ne_nil hu
  by_cases hle : n + 1 ≤ u.length
  · -- both are prefixes of the word
    have hpre : (c :: s).take (n + 1) <+: w := (List.take_prefix (n + 1) (c :: s)).trans hs
    have hupre : u <+: w := (prefix_append u t).trans ht
    exact List.prefix_of_prefix_length_le hpre hupre (by omega)
  -- the word `t` overlaps what follows the first letters of `s`
  have htw : t <+: w.drop u.length := drop_prefix_of_append ht
  have hsw : (c :: s).drop u.length <+: w.drop u.length :=
    drop_prefix u.length hs (by rw [List.length_cons]; omega)
  have heq : (c :: s).drop u.length = s.drop (u.length - 1) := by
    obtain ⟨k, hk⟩ : ∃ k, u.length = k + 1 := ⟨u.length - 1, by omega⟩
    rw [hk, List.drop_succ_cons, Nat.add_sub_cancel]
  rw [heq] at hsw
  exact absurd (comparable_of_isPrefix hsw htw) (hno (u.length - 1) (by omega))

/-! ## Shifts -/

/-- Behind some word of `n` letters, `d` agrees with `c`. -/
def ShiftOf (c d : List α) (n : Nat) : Prop :=
  ∃ z u v, z.length = n ∧ z ++ (d ++ u) = c ++ v

lemma ShiftOf.comparable {c d : List α} (h : ShiftOf c d n) : Comparable (c.drop n) d := by
  obtain ⟨z, u, v, rfl, h⟩ := h
  have hd : d ++ u = c.drop z.length ++ v.drop (z.length - c.length) := by
    rw [← drop_append, ← h, drop_left]
  exact comparable_of_isPrefix (prefix_append _ _) (hd ▸ prefix_append d u)

lemma shiftOf_of_comparable {c d : List α} (hn : n ≤ c.length)
    (h : Comparable (c.drop n) d) : ShiftOf c d n := by
  have hlen : (c.take n).length = n := List.length_take_of_le hn
  rcases h with ⟨e, rfl⟩ | ⟨e, he⟩
  · refine ⟨c.take n, [], e, hlen, ?_⟩
    rw [append_nil, ← append_assoc, List.take_append_drop]
  · refine ⟨c.take n, e, [], hlen, ?_⟩
    rw [he, List.take_append_drop, append_nil]

/-! ## Occurrences -/

lemma length_le_of_noOverlap {c d t q : List α} (hno : NoOverlap c d c.length)
    (h : c ++ s = p ++ (d ++ t ++ q)) : c.length ≤ p.length := by
  by_contra hlt
  rw [not_le] at hlt
  have hdrop : c.drop p.length ++ s = d ++ t ++ q := by
    rw [← drop_append_of_le_length hlt.le, h, drop_left]
  refine hno p.length hlt (comparable_of_isPrefix (prefix_append _ s) ?_)
  rw [hdrop, append_assoc]
  exact prefix_append d _

/-- The same at the other end. -/
lemma length_le_of_noOverlap_reverse {c d t q : List α}
    (hno : NoOverlap c.reverse d.reverse c.length) (h : s ++ c = p ++ (t ++ d ++ q)) :
    c.length ≤ q.length := by
  have hc : c.reverse.length = c.length := List.length_reverse
  have hq : q.reverse.length = q.length := List.length_reverse
  rw [← hc, ← hq]
  refine length_le_of_noOverlap (d := d.reverse) (t := t.reverse) (q := p.reverse)
    (s := s.reverse) (by rwa [List.length_reverse]) ?_
  rw [← List.reverse_append, h]
  simp only [List.reverse_append, append_assoc]

/-- If no end of `c` overlaps `d` and no end of `d` overlaps `c`, then an occurrence of `d` is on
one side of `c`. -/
lemma infix_split {c d : List α} (hcd : NoOverlap c d c.length) (hdc : NoOverlap d c d.length) :
    d <:+: t ++ (c ++ s) ↔ d <:+: t ∨ d <:+: s := by
  constructor
  · rintro ⟨p, q, h⟩
    by_cases hend : p.length + d.length ≤ t.length
    · -- the occurrence ends in `t`
      left
      have hpre : p ++ d <+: t := by
        refine List.prefix_of_prefix_length_le ⟨q, h⟩ (prefix_append t _) ?_
        rw [List.length_append]
        exact hend
      obtain ⟨z, rfl⟩ := hpre
      exact ⟨p, z, rfl⟩
    by_cases hbegin : t.length ≤ p.length
    · -- it begins behind `t`, so behind `c`
      right
      have hpre : t <+: p :=
        List.prefix_of_prefix_length_le (prefix_append t (c ++ s))
          ⟨d ++ q, by rw [← h, append_assoc]⟩ hbegin
      obtain ⟨z, rfl⟩ := hpre
      have hcs : c ++ s = z ++ (d ++ [] ++ q) := by
        rw [append_assoc, append_assoc, List.append_cancel_left_eq] at h
        rw [← h, append_nil]
      have hle := length_le_of_noOverlap hcd hcs
      have hpre : c <+: z :=
        List.prefix_of_prefix_length_le (prefix_append c s) ⟨_, hcs.symm⟩ hle
      obtain ⟨y, rfl⟩ := hpre
      rw [append_assoc, List.append_cancel_left_eq, append_nil] at hcs
      rw [hcs]
      exact ⟨y, q, append_assoc y d q⟩
    -- it begins in `t` and ends behind it
    exfalso
    rw [not_le] at hend hbegin
    refine hdc (t.length - p.length) (by omega) ?_
    have hdrop : d.drop (t.length - p.length) ++ q = c ++ s := by
      have htail : (p ++ d ++ q).drop t.length = c ++ s := by rw [h, drop_left]
      rw [← htail, append_assoc, drop_append, List.drop_of_length_le hbegin.le,
        nil_append, drop_append_of_le_length (by omega)]
    exact comparable_of_isPrefix (prefix_append _ q) (hdrop ▸ prefix_append c s)
  · rintro (⟨p, q, rfl⟩ | ⟨p, q, rfl⟩)
    · exact ⟨p, q ++ (c ++ s), by simp⟩
    · exact ⟨t ++ (c ++ p), q, by simp⟩

/-- Every occurrence of `d` in `c1 ++ s ++ c2` is one in `s`. -/
def OccursInside (c1 s c2 d : List α) : Prop :=
  ∀ p q, c1 ++ (s ++ c2) = p ++ (d ++ q) → c1.length ≤ p.length ∧ c2.length ≤ q.length

lemma occursInside_of_noOverlap {c1 c2 d1 d2 : List α} (h1 : NoOverlap c1 d1 c1.length)
    (h2 : NoOverlap c2.reverse d2.reverse c2.length) :
    OccursInside c1 s c2 (d1 ++ (t ++ d2)) := by
  intro p q h
  constructor
  · exact length_le_of_noOverlap h1 h
  refine length_le_of_noOverlap_reverse (s := c1 ++ s) (p := p) (t := d1 ++ t) h2 ?_
  rw [append_assoc, h]
  simp only [append_assoc]

lemma prefix_drop_iff {c1 c2 d : List α} (hin : OccursInside c1 s c2 d) {j : Nat}
    (hj : j ≤ (c1 ++ (s ++ c2)).length) :
    d <+: (c1 ++ (s ++ c2)).drop j ↔ ∃ i, j = c1.length + i ∧ i ≤ s.length ∧ d <+: s.drop i := by
  constructor
  · rintro ⟨q, hq⟩
    have hsplit : c1 ++ (s ++ c2) = (c1 ++ (s ++ c2)).take j ++ (d ++ q) := by
      rw [hq, List.take_append_drop]
    obtain ⟨hp, hq'⟩ := hin _ _ hsplit
    rw [List.length_take, Nat.min_eq_left hj] at hp
    have htotal := congrArg List.length hsplit
    simp only [List.length_append, List.length_take] at htotal hj
    obtain ⟨i, rfl⟩ : ∃ i, j = c1.length + i := ⟨j - c1.length, by omega⟩
    have hi : i ≤ s.length := by omega
    refine ⟨i, rfl, hi, ?_⟩
    rw [drop_append, List.drop_of_length_le (by omega), nil_append, Nat.add_sub_cancel_left,
      drop_append_of_le_length hi] at hq
    refine List.prefix_of_prefix_length_le ⟨q, hq⟩ (prefix_append _ c2) ?_
    rw [List.length_drop]
    omega
  · rintro ⟨i, rfl, hi, hd⟩
    rw [drop_append, List.drop_of_length_le (by omega), nil_append,
      Nat.add_sub_cancel_left, drop_append_of_le_length hi]
    exact hd.trans (prefix_append _ c2)

section Find

variable [DecidableEq α] {c1 c2 d : List α}

lemma find_of_occursInside (hin : OccursInside c1 s c2 d) :
    Words.find d (c1 ++ (s ++ c2)) = (Words.find d s).map fun i => c1.length + i := by
  cases hs : Words.find d s with
  | some i =>
    obtain ⟨hi, hd, hmin⟩ := Words.find_eq_some.1 hs
    have hle : c1.length + i ≤ (c1 ++ (s ++ c2)).length := by
      simp only [List.length_append]
      omega
    refine Words.find_eq_some.2 ⟨hle, (prefix_drop_iff hin hle).2 ⟨i, rfl, hi, hd⟩, ?_⟩
    intro j hj hdj
    have hj : j < c1.length + i := hj
    obtain ⟨k, rfl, -, hdk⟩ := (prefix_drop_iff hin (by omega)).1 hdj
    exact hmin k (by omega) hdk
  | none =>
    cases hall : Words.find d (c1 ++ (s ++ c2)) with
    | none => rfl
    | some j =>
      obtain ⟨hj, hd, _⟩ := Words.find_eq_some.1 hall
      obtain ⟨i, _, _, hdi⟩ := (prefix_drop_iff hin hj).1 hd
      exact absurd (hdi.isInfix.trans (List.drop_suffix i s).isInfix) (Words.find_eq_none.1 hs)

lemma infix_of_occursInside (hin : OccursInside c1 s c2 d) : d <:+: c1 ++ (s ++ c2) ↔ d <:+: s := by
  rw [← Words.find_isSome, ← Words.find_isSome, find_of_occursInside hin, Option.isSome_map]

lemma replace_of_occursInside (hin : OccursInside c1 s c2 d) (u : List α) :
    Words.replace (c1 ++ (s ++ c2)) d u = c1 ++ (Words.replace s d u ++ c2) := by
  unfold Words.replace
  rw [find_of_occursInside hin]
  cases hs : Words.find d s with
  | none => rfl
  | some i =>
    obtain ⟨hi, hd, _⟩ := Words.find_eq_some.1 hs
    have hlen := hd.length_le
    rw [List.length_drop] at hlen
    dsimp only [Option.map_some]
    rw [List.take_append, List.take_of_length_le (by omega), Nat.add_sub_cancel_left,
      List.take_append_of_le_length hi, Nat.add_assoc, drop_append,
      List.drop_of_length_le (by omega), nil_append, Nat.add_sub_cancel_left,
      drop_append_of_le_length (by omega)]
    simp only [append_assoc]

end Find

end EthosCpc.Library
