import EthosCpc.Cvc5.NfaRunSpec

/-!
# Membership of constant strings in cvc5 is decided

The backtracking search answers for enough fuel, and answers right, for
strings whose length and its successor are an `int`.  The loop of a
concatenation is followed level by level: a level that is entered at a
position answers whether the components from it on match there, or goes back
to the level before.
-/

namespace EthosCpc.Cvc5

open Filter
open Option (bind_some)
open List (drop_drop length_drop length_nil)
open Language (mem_mul nil_mem_kstar notMem_zero)

/-! ## Answers -/

/-- The result is there and says whether the statement holds. -/
def Answers (o : Option Bool) (P : Prop) : Prop := ∃ b, o = some b ∧ (b = true ↔ P)

namespace Answers

variable {o o' : Option Bool} {P Q : Prop}

lemma congr (h : Answers o P) (hPQ : P ↔ Q) : Answers o Q := by
  obtain ⟨b, hb, hP⟩ := h
  exact ⟨b, hb, hP.trans hPQ⟩

lemma decide (P : Prop) [Decidable P] : Answers (some (Decidable.decide P)) P :=
  ⟨_, rfl, decide_eq_true_iff⟩

lemma yes (h : P) : Answers (some true) P := ⟨true, rfl, iff_of_true rfl h⟩

lemma no (h : ¬ P) : Answers (some false) P := ⟨false, rfl, iff_of_false Bool.false_ne_true h⟩

lemma or (h : Answers o P) (h' : ¬ P → Answers o' Q) :
    Answers (o.bind fun b => if b then some true else o') (P ∨ Q) := by
  obtain ⟨b, rfl, hP⟩ := h
  rw [bind_some]
  cases b with
  | true => exact yes (.inl (hP.1 rfl))
  | false =>
    have hnot : ¬ P := fun h => Bool.false_ne_true (hP.2 h)
    exact (h' hnot).congr (or_iff_right hnot).symm

lemma and (h : Answers o P) (h' : P → Answers o' Q) :
    Answers (o.bind fun b => if b then o' else some false) (P ∧ Q) := by
  obtain ⟨b, rfl, hP⟩ := h
  rw [bind_some]
  cases b with
  | true => exact (h' (hP.1 rfl)).congr (and_iff_right (hP.1 rfl)).symm
  | false => exact no fun h => Bool.false_ne_true (hP.2 h.1)

lemma not (h : Answers o P) : Answers (o.map fun b => !b) (¬ P) := by
  obtain ⟨b, rfl, hP⟩ := h
  refine ⟨!b, rfl, ?_⟩
  rw [Bool.not_eq_true', ← hP]
  cases b <;> simp

end Answers

/-- One unit of fuel is spent on the call. -/
lemma eventually_succ {p : Nat → Prop} (h : ∀ᶠ k in atTop, p (k + 1)) : ∀ᶠ k in atTop, p k := by
  obtain ⟨N, hN⟩ := eventually_atTop.1 h
  refine eventually_atTop.2 ⟨N + 1, fun k hk => ?_⟩
  obtain ⟨m, rfl⟩ := Nat.exists_eq_add_of_le' (Nat.le_of_add_left_le hk)
  exact hN m (by omega)

/-! ## Loops over children -/

section Children

variable {test : Str → Nat → Regex → Option Bool} {s : Str} {indexStart : Nat}

lemma answers_anyChild {rs : List Regex}
    (h : ∀ r ∈ rs, Answers (test s indexStart r) (s.drop indexStart ∈ r.lang)) :
    Answers (anyChild test s indexStart rs) (s.drop indexStart ∈ Regex.langUnion rs) := by
  induction rs with
  | nil => exact Answers.no (notMem_zero _)
  | cons r rs ih =>
    rw [Regex.langUnion]
    exact (h r (.head _)).or fun _ => ih fun r' hr' => h r' (List.mem_cons_of_mem r hr')

lemma answers_allChildren {rs : List Regex}
    (h : ∀ r ∈ rs, Answers (test s indexStart r) (s.drop indexStart ∈ r.lang)) :
    Answers (allChildren test s indexStart rs) (s.drop indexStart ∈ Regex.langInter rs) := by
  induction rs with
  | nil => exact Answers.yes trivial
  | cons r rs ih =>
    rw [Regex.langInter]
    exact (h r (.head _)).and fun _ => ih fun r' hr' => h r' (List.mem_cons_of_mem r hr')

lemma nil_mem_langConcat (rs : List Regex) :
    [] ∈ Regex.langConcat rs ↔ [] ∈ Regex.langInter rs := by
  induction rs with
  | nil => exact iff_of_true rfl trivial
  | cons r rs ih =>
    rw [Regex.langConcat, Regex.langInter, mem_mul]
    constructor
    · rintro ⟨a, ha, b, hb, hab⟩
      obtain ⟨rfl, rfl⟩ := List.append_eq_nil_iff.1 hab
      exact ⟨ha, ih.1 hb⟩
    · rintro ⟨hr, hrs⟩
      exact ⟨[], hr, [], ih.2 hrs, rfl⟩

end Children

/-! ## Stars -/

lemma mem_kstar_take {L : RegLan} {w : Str} (hw : w ≠ []) : w ∈ KStar.kstar L ↔
      ∃ j, 1 ≤ j ∧ j ≤ w.length ∧ w.take j ∈ L ∧ w.drop j ∈ KStar.kstar L := by
  constructor
  · intro h
    rw [Language.kstar_def_nonempty] at h
    obtain ⟨S, rfl, hS⟩ := h
    match S with
    | [] => exact absurd rfl hw
    | y :: ys =>
      have hy := hS y (.head _)
      refine ⟨y.length, List.length_pos_of_ne_nil hy.2, ?_, ?_, ?_⟩
      · simp
      · simpa using hy.1
      · simpa using Language.join_mem_kstar fun z hz => (hS z (List.mem_cons_of_mem y hz)).1
  · rintro ⟨j, _, _, htake, hdrop⟩
    have hmul : w.take j ++ w.drop j ∈ L * KStar.kstar L := Language.append_mem_mul htake hdrop
    rw [List.take_append_drop] at hmul
    rw [← Language.one_add_self_mul_kstar_eq_kstar]
    exact .inr hmul

lemma answers_starLoop {test : Str → Nat → Regex → Option Bool} {s : Str} {indexStart : Nat}
    {r : Regex} (hs : s.length < 4294967296) (i : Nat) (hi : indexStart + i ≤ s.length)
    (hbody : ∀ j, 1 ≤ j → j ≤ i →
      Answers (test ((s.drop indexStart).take j) 0 r) ((s.drop indexStart).take j ∈ r.lang))
    (hrest : ∀ j, 1 ≤ j → j ≤ i → Answers (test s (indexStart + j) (.star r))
      (s.drop (indexStart + j) ∈ KStar.kstar r.lang)) :
    Answers (starLoop test s indexStart r i) (∃ j, 1 ≤ j ∧ j ≤ i ∧
      (s.drop indexStart).take j ∈ r.lang ∧ s.drop (indexStart + j) ∈ KStar.kstar r.lang) := by
  induction i with
  | zero => exact Answers.no fun ⟨j, h1, h2, _⟩ => by omega
  | succ i ih =>
    have hrec := ih (by omega) (fun j h1 h2 => hbody j h1 (by omega))
      fun j h1 h2 => hrest j h1 (by omega)
    have hcast : toUnsigned (indexStart + (i + 1)) = indexStart + (i + 1) :=
      Nat.mod_eq_of_lt (by omega)
    have hsplit : (∃ j, 1 ≤ j ∧ j ≤ i + 1 ∧ (s.drop indexStart).take j ∈ r.lang ∧
        s.drop (indexStart + j) ∈ KStar.kstar r.lang) ↔
        ((s.drop indexStart).take (i + 1) ∈ r.lang ∧
          s.drop (indexStart + (i + 1)) ∈ KStar.kstar r.lang) ∨
        ∃ j, 1 ≤ j ∧ j ≤ i ∧ (s.drop indexStart).take j ∈ r.lang ∧
          s.drop (indexStart + j) ∈ KStar.kstar r.lang := by
      constructor
      · rintro ⟨j, h1, h2, h⟩
        rcases Nat.lt_or_ge i j with hj | hj
        · rw [show j = i + 1 by omega] at h
          exact .inl h
        · exact .inr ⟨j, h1, hj, h⟩
      · rintro (h | ⟨j, h1, h2, h⟩)
        · exact ⟨i + 1, by omega, le_rfl, h⟩
        · exact ⟨j, h1, by omega, h⟩
    refine Answers.congr ?_ hsplit.symm
    rw [starLoop, hcast]
    obtain ⟨b, hb, hiff⟩ := hbody (i + 1) (by omega) le_rfl
    rw [hb, bind_some]
    cases b with
    | false =>
      have hnot : (s.drop indexStart).take (i + 1) ∉ r.lang := fun hmem =>
        Bool.false_ne_true (hiff.2 hmem)
      exact hrec.congr (or_iff_right fun h => hnot h.1).symm
    | true =>
      have hmem := hiff.1 rfl
      rw [if_pos rfl, and_iff_right hmem]
      by_cases hend : indexStart + (i + 1) = s.length
      · rw [if_pos hend]
        refine Answers.yes (.inl ?_)
        rw [hend, List.drop_length]
        exact nil_mem_kstar _
      · rw [if_neg hend]
        exact (hrest (i + 1) (by omega) le_rfl).or fun _ => hrec

/-! ## Concatenations -/

section Concat

/-- The test answers for the components at every part of the string. -/
def Exact (s : Str) (rs : List Regex) (test : Str → Nat → Regex → Option Bool) : Prop :=
  ∀ r ∈ rs, ∀ a ≤ s.length, Answers (test s a r) (s.drop a ∈ r.lang) ∧
    ∀ b ≤ s.length, Answers (test ((s.drop a).take b) 0 r) ((s.drop a).take b ∈ r.lang)

variable {s : Str} {rs : List Regex}

variable {pos j : Nat}

lemma scan_spec (hs : s.length + 1 < 2147483648) {r : Regex} (hr : r ∈ rs)
    (hpos : pos ≤ s.length) (d v : Nat) (hv : v + d = s.length - pos + 1) :
    (∃ w, v ≤ w ∧ w ≤ s.length - pos ∧ (s.drop pos).take w ∈ r.lang ∧
      (∀ l, v ≤ l → l < w → (s.drop pos).take l ∉ r.lang) ∧
      ∃ M, ∀ test, Exact s rs test → ∀ m ≥ M,
        scan test s pos ((s.length - pos : Nat) : Int) r m v = some (some (w : Int))) ∨
    ((∀ l, v ≤ l → l ≤ s.length - pos → (s.drop pos).take l ∉ r.lang) ∧
      ∃ M, ∀ test, Exact s rs test → ∀ m ≥ M,
        scan test s pos ((s.length - pos : Nat) : Int) r m v = some none) := by
  induction d generalizing v with
  | zero =>
    refine .inr ⟨fun l h1 h2 => by omega, 1, fun test _ m hm => ?_⟩
    obtain ⟨m, rfl⟩ := Nat.exists_eq_add_of_le' hm
    rw [scan, if_neg (by omega)]
  | succ d ih =>
    have hle : (v : Int) ≤ ((s.length - pos : Nat) : Int) := by omega
    have hincr : incr (v : Int) = some ((v + 1 : Nat) : Int) := by
      rw [incr, if_pos (by omega)]
      rfl
    by_cases hmatch : (s.drop pos).take v ∈ r.lang
    · refine .inl ⟨v, le_rfl, by omega, hmatch, fun l h1 h2 => by omega, 1,
        fun test hexact m hm => ?_⟩
      obtain ⟨m, rfl⟩ := Nat.exists_eq_add_of_le' hm
      obtain ⟨b, hb, hiff⟩ := (hexact r hr pos hpos).2 v (by omega)
      rw [scan, if_pos hle, Int.toNat_natCast, hb, bind_some, if_pos (hiff.2 hmatch)]
    have hstep : ∀ o, (∃ M, ∀ test, Exact s rs test → ∀ m ≥ M,
        scan test s pos ((s.length - pos : Nat) : Int) r m ((v + 1 : Nat) : Int) = o) →
        ∃ M, ∀ test, Exact s rs test → ∀ m ≥ M,
          scan test s pos ((s.length - pos : Nat) : Int) r m v = o := by
      rintro o ⟨M, hM⟩
      refine ⟨M + 1, fun test hexact m hm => ?_⟩
      obtain ⟨m, rfl⟩ := Nat.exists_eq_add_of_le' (Nat.le_of_add_left_le hm)
      obtain ⟨b, hb, hiff⟩ := (hexact r hr pos hpos).2 v (by omega)
      have hfalse : b = false := Bool.eq_false_iff.2 fun h => hmatch (hiff.1 h)
      rw [scan, if_pos hle, Int.toNat_natCast, hb, bind_some, hfalse, if_neg (by simp),
        hincr, bind_some]
      exact hM test hexact m (by omega)
    rcases ih (v + 1) (by omega) with ⟨w, h1, h2, hw, hno, hM⟩ | ⟨hno, hM⟩
    · refine .inl ⟨w, by omega, h2, hw, fun l hl1 hl2 => ?_, hstep _ hM⟩
      rcases Nat.eq_or_lt_of_le hl1 with rfl | hlt
      · exact hmatch
      · exact hno l hlt hl2
    refine .inr ⟨fun l hl1 hl2 => ?_, hstep _ hM⟩
    rcases Nat.eq_or_lt_of_le hl1 with rfl | hlt
    · exact hmatch
    · exact hno l hlt hl2

variable (s rs) in
/-- From the state the loop answers, with fuel that does not depend on the test. -/
def Yields (indexStart : Nat) (st : ConcatState) (P : Prop) : Prop :=
  ∃ M, ∀ test, Exact s rs test → ∀ m ≥ M, Answers (concatLoop test s indexStart rs m st) P

lemma Yields.congr {indexStart : Nat} {st : ConcatState} {P Q : Prop}
    (h : Yields s rs indexStart st P) (hPQ : P ↔ Q) : Yields s rs indexStart st Q := by
  obtain ⟨M, hM⟩ := h
  exact ⟨M, fun test hexact m hm => (hM test hexact m hm).congr hPQ⟩

/-- The state in which a level stands at a position. -/
def levelState (s : Str) (indexStart j pos : Nat) (vecK : Nat → Int) : ConcatState :=
  ⟨j, ((pos - indexStart : Nat) : Int), ((s.length - pos : Nat) : Int), vecK⟩

/-- The components from a level on match at a position. -/
def Suffix (s : Str) (rs : List Regex) (j pos : Nat) : Prop :=
  s.drop pos ∈ Regex.langConcat (rs.drop j)

lemma suffix_iff (hj : j < rs.length) : Suffix s rs j pos ↔ ∃ w, w ≤ s.length - pos ∧
      (s.drop pos).take w ∈ (rs.getD j .none).lang ∧ Suffix s rs (j + 1) (pos + w) := by
  unfold Suffix
  have hcons : rs.drop j = rs.getD j .none :: rs.drop (j + 1) := by
    rw [List.getD_eq_getElem _ _ hj]
    exact List.drop_eq_getElem_cons hj
  rw [hcons, Regex.langConcat, mem_mul]
  constructor
  · rintro ⟨a, ha, b, hb, hab⟩
    have hlen := congrArg List.length hab
    rw [List.length_append, length_drop] at hlen
    refine ⟨a.length, by omega, ?_, ?_⟩
    · rw [← hab, List.take_left']
      · exact ha
      · rfl
    rw [show s.drop (pos + a.length) = (s.drop pos).drop a.length from drop_drop.symm,
      ← hab, List.drop_left']
    · exact hb
    · rfl
  · rintro ⟨w, _, ha, hb⟩
    rw [show s.drop (pos + w) = (s.drop pos).drop w from drop_drop.symm] at hb
    exact ⟨_, ha, _, hb, List.take_append_drop _ _⟩

lemma suffix_last (hj : j + 1 = rs.length) :
    Suffix s rs j pos ↔ s.drop pos ∈ (rs.getD j .none).lang := by
  have hlt : j < rs.length := by omega
  have hcons : rs.drop j = [rs.getD j .none] := by
    rw [List.getD_eq_getElem _ _ hlt, List.drop_eq_getElem_cons hlt, List.drop_of_length_le
      (by omega)]
  unfold Suffix
  rw [hcons, Regex.langConcat, Regex.langConcat, mul_one]

lemma getD_mem (hj : j < rs.length) : rs.getD j .none ∈ rs := by
  rw [List.getD_eq_getElem _ _ hj]
  exact List.getElem_mem hj

variable {indexStart : Nat}

/-- A level that is not the last, with the lengths up to `v` behind it: it goes on to the next
level at the lengths at which its component matches, and then back. -/
lemma yields_level (hs : s.length + 1 < 2147483648) (hj : j + 1 < rs.length)
    (hpos : indexStart ≤ pos) (hpos' : pos ≤ s.length)
    (henter : ∀ w vecK P, pos + w ≤ s.length → vecK (j + 1) = -1 →
      (∀ vecK', (∀ l < j + 1, vecK' l = vecK l) →
        Yields s rs indexStart (levelState s indexStart (j + 1) (pos + w) vecK').back P) →
      Yields s rs indexStart (levelState s indexStart (j + 1) (pos + w) vecK)
        (Suffix s rs (j + 1) (pos + w) ∨ P))
    {P : Prop} (d v : Nat) (hv : v + d = s.length - pos + 1) (vecK : Nat → Int)
    (hvec : vecK j = (v : Int) - 1)
    (hback : ∀ vecK', (∀ l < j, vecK' l = vecK l) →
      Yields s rs indexStart (levelState s indexStart j pos vecK').back P) :
    Yields s rs indexStart (levelState s indexStart j pos vecK)
      ((∃ w, v ≤ w ∧ w ≤ s.length - pos ∧ (s.drop pos).take w ∈ (rs.getD j .none).lang ∧
        Suffix s rs (j + 1) (pos + w)) ∨ P) := by
  induction d using Nat.strong_induction_on generalizing v vecK with
  | _ d ih =>
    have hr : rs.getD j .none ∈ rs := getD_mem (by omega)
    have hlt : (j : Int) < rs.length := by omega
    have hnot : ¬ (j : Int) = rs.length - 1 := by omega
    have hneg : ¬ (j : Int) = -1 := by omega
    have hincr : incr (vecK j) = some (v : Int) := by
      rw [hvec, incr, if_pos (by omega)]
      congr 1
      omega
    have hidx : indexStart + (pos - indexStart) = pos := by omega
    have hunfold : ∀ test m, concatLoop test s indexStart rs (m + 1)
        (levelState s indexStart j pos vecK) =
        (scan test s pos ((s.length - pos : Nat) : Int) (rs.getD j .none) m v).bind fun o =>
          o.elim (concatLoop test s indexStart rs m (levelState s indexStart j pos vecK).back)
            fun w => concatLoop test s indexStart rs m
              ⟨(j : Int) + 1, ((pos - indexStart : Nat) : Int) + w,
                ((s.length - pos : Nat) : Int) - w,
                Function.update (Function.update vecK j w) ((j : Int) + 1).toNat (-1)⟩ := by
      intro test m
      rw [concatLoop]
      simp only [levelState, if_pos hlt, if_neg hnot, if_neg hneg, Int.toNat_natCast, hincr,
        bind_some, hidx]
      all_goals refine congrArg _ (funext fun o => by cases o <;> rfl)
    rcases scan_spec hs hr hpos' d v hv with
      ⟨w, hvw, hw, hmatch, hno, M, hM⟩ | ⟨hno, M, hM⟩
    · -- on to the next level, and from there to the lengths behind this one
      have hj1 : ((j : Int) + 1).toNat = j + 1 := by omega
      have hnext : Yields s rs indexStart (levelState s indexStart (j + 1) (pos + w)
          (Function.update (Function.update vecK j (w : Int)) (j + 1) (-1)))
          (Suffix s rs (j + 1) (pos + w) ∨ ((∃ w', w + 1 ≤ w' ∧ w' ≤ s.length - pos ∧
            (s.drop pos).take w' ∈ (rs.getD j .none).lang ∧
            Suffix s rs (j + 1) (pos + w')) ∨ P)) := by
        refine henter w _ _ (by omega) (Function.update_self _ _ _) fun vecK' hvecK' => ?_
        have hvj : vecK' j = (w : Int) := by
          rw [hvecK' j (Nat.lt_succ_self j), Function.update_of_ne (by omega),
            Function.update_self]
        have hbackEq : (levelState s indexStart (j + 1) (pos + w) vecK').back =
            levelState s indexStart j pos vecK' := by
          have hi : (((j + 1 : Nat) : Int) - 1) = (j : Int) := by omega
          unfold ConcatState.back levelState
          simp only [hi, Int.toNat_natCast, hvj, if_pos (Int.natCast_nonneg j)]
          congr 1 <;> omega
        rw [hbackEq]
        refine ih (s.length - pos - w) (by omega) (w + 1) (by omega) vecK' (by omega)
          fun vecK'' hvecK'' => hback vecK'' fun l hl => ?_
        rw [hvecK'' l hl, hvecK' l (by omega), Function.update_of_ne (by omega),
          Function.update_of_ne (by omega)]
      obtain ⟨M', hM'⟩ := hnext
      refine ⟨max M M' + 1, fun test hexact m hm => ?_⟩
      obtain ⟨m, rfl⟩ := Nat.exists_eq_add_of_le' (Nat.le_of_add_left_le hm)
      rw [hunfold, hM test hexact m (by omega), bind_some]
      have hstate : (⟨(j : Int) + 1, ((pos - indexStart : Nat) : Int) + w,
            ((s.length - pos : Nat) : Int) - w,
            Function.update (Function.update vecK j (w : Int))
              ((j : Int) + 1).toNat (-1)⟩ : ConcatState) =
          levelState s indexStart (j + 1) (pos + w)
            (Function.update (Function.update vecK j (w : Int)) (j + 1) (-1)) := by
        unfold levelState
        rw [hj1]
        congr 1 <;> omega
      dsimp only [Option.elim]
      rw [hstate]
      refine (hM' test hexact m (by omega)).congr ?_
      constructor
      · rintro (hsuf | ⟨w', h1, h2, h3, h4⟩ | hP)
        · exact .inl ⟨w, hvw, hw, hmatch, hsuf⟩
        · exact .inl ⟨w', by omega, h2, h3, h4⟩
        · exact .inr hP
      rintro (⟨w', h1, h2, h3, h4⟩ | hP)
      · rcases Nat.lt_trichotomy w' w with hlt' | rfl | hgt
        · exact absurd h3 (hno w' h1 hlt')
        · exact .inl h4
        · exact .inr (.inl ⟨w', hgt, h2, h3, h4⟩)
      · exact .inr (.inr hP)
    · obtain ⟨M', hM'⟩ := hback vecK fun _ _ => rfl
      refine ⟨max M M' + 1, fun test hexact m hm => ?_⟩
      obtain ⟨m, rfl⟩ := Nat.exists_eq_add_of_le' (Nat.le_of_add_left_le hm)
      rw [hunfold, hM test hexact m (by omega), bind_some]
      refine (hM' test hexact m (by omega)).congr (or_iff_right ?_).symm
      rintro ⟨w, h1, h2, h3, _⟩
      exact hno w h1 h2 h3

lemma yields_enter (hs : s.length + 1 < 2147483648) (d j : Nat) (hj : j + d + 1 = rs.length)
    (hpos : indexStart ≤ pos) (hpos' : pos ≤ s.length) (vecK : Nat → Int)
    (hvec : vecK j = -1) {P : Prop}
    (hback : ∀ vecK', (∀ l < j, vecK' l = vecK l) →
      Yields s rs indexStart (levelState s indexStart j pos vecK').back P) :
    Yields s rs indexStart (levelState s indexStart j pos vecK) (Suffix s rs j pos ∨ P) := by
  induction d generalizing j pos vecK P with
  | zero =>
    obtain ⟨M, hM⟩ := hback vecK fun _ _ => rfl
    refine ⟨M + 1, fun test hexact m hm => ?_⟩
    obtain ⟨m, rfl⟩ := Nat.exists_eq_add_of_le' (Nat.le_of_add_left_le hm)
    have hlt : (j : Int) < rs.length := by omega
    have hlast : (j : Int) = rs.length - 1 := by omega
    have hidx : indexStart + (pos - indexStart) = pos := by omega
    have hunfold : concatLoop test s indexStart rs (m + 1) (levelState s indexStart j pos vecK) =
        (test s pos (rs.getD j .none)).bind fun b =>
          if b then some true
          else concatLoop test s indexStart rs m (levelState s indexStart j pos vecK).back := by
      rw [concatLoop]
      simp only [levelState, if_pos hlt, if_pos hlast, Int.toNat_natCast, hidx]
    rw [hunfold, suffix_last (by omega)]
    exact ((hexact _ (getD_mem (by omega)) pos hpos').1).or fun _ => hM test hexact m (by omega)
  | succ d ih =>
    have hlevel := yields_level hs (j := j) (by omega) hpos hpos'
      (fun w vecK P hw hvec hback => ih (j + 1) (by omega) (by omega) hw vecK hvec hback)
      (s.length - pos + 1) 0 (by omega) vecK hvec hback
    refine hlevel.congr ?_
    rw [suffix_iff (by omega)]
    simp

lemma toInt_of_lt {n : Nat} (hn : n < 2147483648) : toInt n = n :=
  Int.bmod_eq_of_le_mul_two (by omega) (by omega)

lemma yields_init (hs : s.length + 1 < 2147483648) (hrs : rs ≠ []) (hidx : indexStart ≤ s.length) :
    Yields s rs indexStart ⟨0, 0, toInt (s.length - indexStart), fun _ => -1⟩
      (s.drop indexStart ∈ Regex.langConcat rs) := by
  have hlen := List.length_pos_of_ne_nil hrs
  have hleft := toInt_of_lt (show s.length - indexStart < 2147483648 by omega)
  have hinit : (⟨0, 0, toInt (s.length - indexStart), fun _ => -1⟩ : ConcatState) =
      levelState s indexStart 0 indexStart fun _ => -1 := by
    unfold levelState
    rw [hleft, Nat.sub_self]
    rfl
  rw [hinit]
  refine (yields_enter hs (rs.length - 1) 0 (by omega) le_rfl hidx (fun _ => -1) rfl (P := False)
    fun vecK' _ => ?_).congr (iff_of_eq (or_false _))
  refine ⟨1, fun test _ m hm => ?_⟩
  obtain ⟨m, rfl⟩ := Nat.exists_eq_add_of_le' hm
  have hi : (levelState s indexStart 0 indexStart vecK').back.i = -1 := rfl
  rw [concatLoop, hi, if_pos (by omega), if_neg (by omega), if_pos rfl]
  exact Answers.no id

end Concat

/-! ## The search -/

/-- On strings of the length the search answers at every position, for enough fuel. -/
def Decided (r : Regex) : Prop :=
  ∀ s : Str, s.length + 1 < 2147483648 → ∀ indexStart ≤ s.length,
    ∀ᶠ k in atTop, Answers (testConstStringInRegExpInternal k s indexStart r)
      (s.drop indexStart ∈ r.lang)

lemma decided_concat {r1 r2 : Regex} {rs : List Regex}
    (h : ∀ r ∈ r1 :: r2 :: rs, Decided r) : Decided (.concat r1 r2 rs) := by
  intro s hs indexStart hidx
  have hlang : (Regex.concat r1 r2 rs).lang = Regex.langConcat (r1 :: r2 :: rs) := by
    rw [Regex.lang, Regex.langConcat, Regex.langConcat]
  have hexact : ∀ᶠ k in atTop, Exact s (r1 :: r2 :: rs) (testConstStringInRegExpInternal k) := by
    unfold Exact
    refine (eventually_all_finite (List.finite_toSet (r1 :: r2 :: rs))).2 fun r hr => ?_
    refine (eventually_all_finite (Set.finite_le_nat s.length)).2 fun a ha => ?_
    refine (h r hr s hs a ha).and ?_
    refine (eventually_all_finite (Set.finite_le_nat s.length)).2 fun b _ => ?_
    have hlen : ((s.drop a).take b).length + 1 < 2147483648 := by
      rw [List.length_take, length_drop]
      omega
    exact h r hr _ hlen 0 (Nat.zero_le _)
  obtain ⟨M, hM⟩ := yields_init hs (List.cons_ne_nil r1 (r2 :: rs)) hidx
  refine eventually_succ ?_
  filter_upwards [hexact, eventually_ge_atTop M] with k hk hkM
  rw [testConstStringInRegExpInternal]
  split
  · rw [hlang]
    exact hM _ hk k hkM
  rename_i hend
  have hnil : s.drop indexStart = [] := List.drop_of_length_le (by omega)
  refine (answers_allChildren fun r hr => (hk r hr indexStart hidx).1).congr ?_
  rw [hlang, hnil]
  exact (nil_mem_langConcat _).symm

lemma decided_star {r : Regex} (h : Decided r) : Decided (.star r) := by
  intro s hs indexStart hidx
  -- by what is left of the string
  generalize hm : s.length - indexStart = m
  induction m using Nat.strong_induction_on generalizing indexStart with
  | _ m ih =>
    have hbody : ∀ᶠ k in atTop, ∀ j ∈ { j | j ≤ s.length },
        Answers (testConstStringInRegExpInternal k ((s.drop indexStart).take j) 0 r)
          ((s.drop indexStart).take j ∈ r.lang) := by
      refine (eventually_all_finite (Set.finite_le_nat s.length)).2 fun j _ => ?_
      have hlen : ((s.drop indexStart).take j).length + 1 < 2147483648 := by
        rw [List.length_take, length_drop]
        omega
      exact h _ hlen 0 (Nat.zero_le _)
    have hrest : ∀ᶠ k in atTop, ∀ j ∈ { j | j ≤ s.length }, 1 ≤ j → j ≤ m →
        Answers (testConstStringInRegExpInternal k s (indexStart + j) (.star r))
          (s.drop (indexStart + j) ∈ KStar.kstar r.lang) := by
      refine (eventually_all_finite (Set.finite_le_nat s.length)).2 fun j _ => ?_
      by_cases hj : 1 ≤ j ∧ j ≤ m
      · filter_upwards [ih (s.length - (indexStart + j)) (by omega) (indexStart + j) (by omega)
          rfl] with k hk _ _
        exact hk
      · exact Eventually.of_forall fun k h1 h2 => absurd ⟨h1, h2⟩ hj
    refine eventually_succ ?_
    filter_upwards [hbody, hrest] with k hkbody hkrest
    rw [testConstStringInRegExpInternal, Regex.lang]
    split
    swap
    · rename_i hend
      rw [List.drop_of_length_le (by omega)]
      exact Answers.yes (nil_mem_kstar _)
    rename_i hne
    have hcast : toUnsigned (s.length - indexStart) = m := by
      rw [hm]
      exact Nat.mod_eq_of_lt (by omega)
    have hnil : s.drop indexStart ≠ [] := fun heq => by
      have hlen := congrArg List.length heq
      rw [length_drop, length_nil] at hlen
      omega
    rw [hcast, mem_kstar_take hnil]
    refine (answers_starLoop (by omega) m (by omega)
      (fun j _ hj => hkbody j (show j ≤ s.length by omega))
      fun j h1 hj => hkrest j (show j ≤ s.length by omega) h1 hj).congr ?_
    rw [length_drop, hm]
    simp only [drop_drop]

lemma drop_eq_getLast {s : Str} {indexStart : Nat} (h : s.length = indexStart + 1) :
    ∃ c, s.drop indexStart = [c] ∧ s.getLast? = some c := by
  have hlen : (s.drop indexStart).length = 1 := by
    rw [length_drop]
    omega
  obtain ⟨c, hc⟩ := List.length_eq_one_iff.1 hlen
  refine ⟨c, hc, ?_⟩
  rw [← List.take_append_drop indexStart s, hc]
  simp

lemma decided_range (a b : CodePoint) : Decided (.range a b) := by
  intro s _ indexStart hidx
  refine eventually_succ (Eventually.of_forall fun k => ?_)
  rw [testConstStringInRegExpInternal, Regex.lang]
  by_cases hlen : s.length = indexStart + 1
  · obtain ⟨c, hdrop, hlast⟩ := drop_eq_getLast hlen
    rw [decide_eq_true hlen, Bool.true_and, hlast, hdrop]
    refine (Answers.decide _).congr ⟨fun hc => ⟨c, rfl, hc⟩, ?_⟩
    rintro ⟨d, hd, hc⟩
    injection hd with hd
    exact hd ▸ hc
  rw [decide_eq_false hlen, Bool.false_and]
  refine Answers.no fun hmem => ?_
  have hone := length_of_mem_reRange _ _ hmem
  rw [length_drop] at hone
  omega

lemma decided_children {rs : List Regex} (h : ∀ r ∈ rs, Decided r) {s : Str}
    (hs : s.length + 1 < 2147483648) {indexStart : Nat} (hidx : indexStart ≤ s.length) :
    ∀ᶠ k in atTop, ∀ r ∈ { r | r ∈ rs },
      Answers (testConstStringInRegExpInternal k s indexStart r) (s.drop indexStart ∈ r.lang) :=
  (eventually_all_finite (List.finite_toSet rs)).2 fun r hr => h r hr s hs indexStart hidx

mutual

lemma decided : ∀ r : Regex, Decided r
  | .toRe w => fun s _ indexStart _ => eventually_succ (Eventually.of_forall fun k => by
      rw [testConstStringInRegExpInternal, Regex.lang]
      exact Answers.decide _)
  | .none => fun s _ indexStart _ => eventually_succ (Eventually.of_forall fun k => by
      rw [testConstStringInRegExpInternal, Regex.lang]
      exact Answers.no (notMem_zero _))
  | .allchar => fun s _ indexStart hidx => eventually_succ (Eventually.of_forall fun k => by
      rw [testConstStringInRegExpInternal, Regex.lang]
      refine (Answers.decide _).congr ?_
      change _ ↔ (s.drop indexStart).length = 1
      rw [length_drop]
      omega)
  | .range a b => decided_range a b
  | .comp r => fun s hs indexStart hidx => eventually_succ (by
      filter_upwards [decided r s hs indexStart hidx] with k hk
      rw [testConstStringInRegExpInternal, Regex.lang]
      exact hk.not)
  | .star r => decided_star (decided r)
  | .union rs => fun s hs indexStart hidx => eventually_succ (by
      filter_upwards [decided_children (decidedAll rs) hs hidx] with k hk
      rw [testConstStringInRegExpInternal, Regex.lang]
      exact answers_anyChild hk)
  | .inter rs => fun s hs indexStart hidx => eventually_succ (by
      filter_upwards [decided_children (decidedAll rs) hs hidx] with k hk
      rw [testConstStringInRegExpInternal, Regex.lang]
      exact answers_allChildren hk)
  | .concat r1 r2 rs => decided_concat (List.forall_mem_cons.2
      ⟨decided r1, List.forall_mem_cons.2 ⟨decided r2, decidedAll rs⟩⟩)

lemma decidedAll : ∀ rs : List Regex, ∀ r ∈ rs, Decided r
  | [] => fun _ hr => nomatch hr
  | r :: rs => List.forall_mem_cons.2 ⟨decided r, decidedAll rs⟩

end

/-! ## Long strings -/

section Long

variable {k : Nat} {s : Str}

lemma scan_le {test : Str → Nat → Regex → Option Bool} {pos : Nat} {left : Int} {r : Regex}
    {m : Nat} {v w : Int} (h : scan test s pos left r m v = some (some w)) : w ≤ left := by
  induction m generalizing v with
  | zero => cases h
  | succ m ih =>
    rw [scan] at h
    split at h
    swap
    · cases h
    rename_i hle
    obtain ⟨b, _, h⟩ := bind_inv h
    split at h
    · cases h
      exact hle
    · obtain ⟨v', _, h⟩ := bind_inv h
      exact ih h

lemma test_none {i : Nat} {b : Bool}
    (hk : testConstStringInRegExpInternal k s i .none = some b) : b = false := by
  cases k with
  | zero => cases hk
  | succ k =>
    rw [testConstStringInRegExpInternal] at hk
    cases hk
    rfl

lemma scan_none (m : Nat) {pos : Nat} {v : Int} (hv : v ≤ 2147483647) :
    scan (testConstStringInRegExpInternal k) s pos 2147483647 .none m v = none := by
  induction m generalizing v with
  | zero => rfl
  | succ m ih =>
    rw [scan, if_pos hv]
    cases htest : testConstStringInRegExpInternal k ((s.drop pos).take v.toNat) 0 .none with
    | none => rfl
    | some b =>
      rw [bind_some, test_none htest, if_neg Bool.false_ne_true]
      cases hincr : incr v with
      | none => rfl
      | some v' =>
        rw [bind_some]
        unfold incr at hincr
        split at hincr
        · cases hincr
          exact ih (by omega)
        · cases hincr

/-- The states of the search of two components, when the first one does not end the string. -/
def Short (left₀ : Int) (st : ConcatState) : Prop :=
  st.i = -1 ∨ (st.i = 0 ∧ st.start = 0 ∧ st.left = left₀) ∨
    (st.i = 1 ∧ st.start = st.vecK 0 ∧ st.left = left₀ - st.vecK 0 ∧ st.vecK 0 ≤ left₀)

lemma concatLoop_short {left0 : Int} (hleft : left0 < s.length) (hs : 0 < s.length) (m : Nat)
    {st : ConcatState} (hst : Short left0 st) :
    concatLoop (testConstStringInRegExpInternal k) s 0 [.comp .none, .toRe []] m st ≠
      some true := by
  induction m generalizing st with
  | zero => exact fun h => nomatch h
  | succ m ih =>
    obtain ⟨i, start, left, vecK⟩ := st
    rw [concatLoop]
    rcases hst with hi | ⟨hi, hstart, hl⟩ | ⟨hi, hstart, hl, hle⟩
    · dsimp only at hi
      subst hi
      simp
    · dsimp only at hi hstart hl
      subst hi hstart hl
      simp only [List.length_cons, length_nil, Int.toNat_zero]
      rw [if_pos (by omega), if_neg (by omega), if_neg (by omega)]
      cases hincr : incr (vecK 0) with
      | none => exact fun h => nomatch h
      | some v =>
        rw [bind_some]
        cases hscan : scan (testConstStringInRegExpInternal k) s (0 + 0) left
          (List.getD [.comp .none, .toRe []] 0 .none) m v with
        | none => exact fun h => nomatch h
        | some found =>
          cases found with
          | none => exact ih (.inl rfl)
          | some w => exact ih (.inr (.inr ⟨rfl, Int.zero_add w, rfl, scan_le hscan⟩))
    dsimp only at hi hstart hl hle
    subst hi hstart hl
    simp only [List.length_cons, length_nil]
    rw [if_pos (by omega), if_pos (by omega)]
    have hrest : s.drop (0 + (vecK 0).toNat) ≠ [] := fun heq => by
      have hlen := congrArg List.length heq
      rw [length_drop, length_nil] at hlen
      omega
    have hback : Short left0 (ConcatState.back ⟨1, vecK 0, left0 - vecK 0, vecK⟩) :=
      .inr (.inl ⟨rfl, Int.sub_self _, Int.sub_add_cancel _ _⟩)
    cases k with
    | zero => exact fun h => nomatch h
    | succ k =>
      have hlast : testConstStringInRegExpInternal (k + 1) s (0 + (vecK 0).toNat)
          (.toRe []) = some false := by
        rw [testConstStringInRegExpInternal, decide_eq_false hrest]
      change ((testConstStringInRegExpInternal (k + 1) s (0 + (vecK 0).toNat)
        (.toRe [])).bind _) ≠ _
      rw [hlast]
      exact ih hback

end Long

/-! ## The result -/

/-- What is asked for a string and a regular expression: the answer is there and right, the two
algorithms agree where both apply, and the search terminates. -/
structure Decides (s : Str) (r : Regex) : Prop where
  answers : ∃ N, ∀ k ≥ N, Answers (testConstStringInRegExp k s r) (s ∈ r.lang)
  agrees : canEvaluate r = true → (evaluate s r = true ↔
    ∃ N, ∀ k ≥ N, testConstStringInRegExpInternal k s 0 r = some true)
  terminates : ∃ N b, ∀ k ≥ N, testConstStringInRegExpInternal k s 0 r = some b

lemma decides_of_length_lt {s : Str} (hs : s.length + 1 < 2147483648) (r : Regex) :
    Decides s r := by
  obtain ⟨N, hN⟩ := eventually_atTop.1 (decided r s hs 0 (Nat.zero_le _))
  rw [List.drop_zero] at hN
  refine ⟨⟨N, fun k hk => ?_⟩, fun hev => ?_, ?_⟩
  · unfold testConstStringInRegExp
    split
    · rename_i hcompound
      exact ⟨_, rfl, evaluate_iff s ((Bool.and_eq_true _ _).mp hcompound).2⟩
    · exact hN k hk
  · rw [evaluate_iff s hev]
    constructor
    · intro hmem
      refine ⟨N, fun k hk => ?_⟩
      obtain ⟨b, hb, hiff⟩ := hN k hk
      rw [hb, hiff.2 hmem]
    rintro ⟨M, hM⟩
    obtain ⟨b, hb, hiff⟩ := hN (max M N) (le_max_right M N)
    have htrue := hM (max M N) (le_max_left M N)
    rw [hb] at htrue
    injection htrue with htrue
    exact hiff.1 htrue
  by_cases hmem : s ∈ r.lang
  · refine ⟨N, true, fun k hk => ?_⟩
    obtain ⟨b, hb, hiff⟩ := hN k hk
    rw [hb, hiff.2 hmem]
  refine ⟨N, false, fun k hk => ?_⟩
  obtain ⟨b, hb, hiff⟩ := hN k hk
  rw [hb, Bool.eq_false_iff.2 fun h => hmem (hiff.1 h)]

lemma not_decides_short {s : Str} (hs : 0 < s.length) (hleft : toInt s.length < s.length) :
    ¬ Decides s (.concat (.comp .none) (.toRe []) []) := by
  intro h
  obtain ⟨N, hN⟩ := h.answers
  obtain ⟨b, hb, hiff⟩ := hN (N + 1) (Nat.le_succ N)
  have hmem : s ∈ (Regex.concat (.comp .none) (.toRe []) []).lang := by
    rw [Regex.lang, Regex.lang, Regex.lang, Regex.langConcat, mul_one]
    refine mem_mul.2 ⟨s, ?_, [], rfl, List.append_nil s⟩
    rw [Regex.lang]
    exact notMem_zero s
  rw [hiff.2 hmem] at hb
  have hnot : canEvaluate (.concat (.comp .none) (.toRe []) []) = false := by simp [canEvaluate]
  rw [testConstStringInRegExp, hnot, Bool.and_false, if_neg Bool.false_ne_true,
    testConstStringInRegExpInternal, if_pos (by omega), Nat.sub_zero] at hb
  generalize toInt s.length = left at hleft hb
  exact concatLoop_short hleft hs N (.inr (.inl ⟨rfl, rfl, rfl⟩)) hb

lemma not_decides_max {s : Str} (hs : 0 < s.length) (hleft : toInt s.length = 2147483647) :
    ¬ Decides s (.concat .none .none []) := by
  intro h
  obtain ⟨N, b, hN⟩ := h.terminates
  have hb := hN (N + 2) (by omega)
  rw [testConstStringInRegExpInternal, if_pos (by omega), Nat.sub_zero, hleft, concatLoop] at hb
  simp only [List.length_cons, length_nil, Int.toNat_zero] at hb
  rw [if_pos (by omega), if_neg (by omega), if_neg (by omega)] at hb
  change ((incr (-1)).bind _) = _ at hb
  rw [show incr (-1) = some 0 by decide, bind_some] at hb
  change ((scan (testConstStringInRegExpInternal (N + 1)) s (0 + 0) 2147483647 .none N 0).bind _) =
    _ at hb
  rw [scan_none N (by omega)] at hb
  cases hb

end EthosCpc.Cvc5
