import EthosCpc.Cpc.Booleans

/-!
# Soundness of the resolution rules

Each program of `rules/Booleans.eo` gets one lemma that says what its
result means, and the rules are sound because of these lemmas alone.

`chain_m_resolution` is the exception.  Its side condition is meant to
check that the requested clause `Cr` contains every literal of the clause
`Cc` that the chain yields, but it calls `eo::list_minclude` with the
arguments the other way round and so checks that `Cr` is contained in `Cc`.
-/

namespace EthosCpc

open Term (bop uop)
open Option (bind_some map_some)

/-! ## What the programs return -/

section Programs

variable (v : Term → Prop)

lemma holds_toClause (F : Term) : holds v (toClause F) ↔ holds v F := by
  unfold toClause
  split <;> simp

lemma holds_fromClause (F : Term) : holds v (fromClause F) ↔ holds v F := by
  unfold fromClause
  split
  swap
  · rfl
  split
  · rename_i F1 F2 hF2
    subst hF2
    simp
  · rfl

variable {v}

lemma eoIte_complementary {pol L lp ln : Term} (hlp : eoIte pol L (uop .not L) = some lp)
    (hln : eoIte pol (uop .not L) L = some ln) : ¬ (holds v lp ∧ holds v ln) := by
  unfold eoIte at hlp hln
  split at hlp
  · cases hlp; cases hln
    simp
  · cases hlp; cases hln
    simp
  · cases hlp

lemma removeMaybeSelf_spec {l C D : Term} (h : removeMaybeSelf l C = some D)
    (hC : holds v C) : holds v D ∨ holds v l := by
  unfold removeMaybeSelf at h
  split at h
  · rename_i hl
    exact .inr (hl ▸ hC)
  obtain ⟨xs, hxs, hD⟩ := eoListErase_spec h
  obtain ⟨x, hx, hvx⟩ := (holds_iff_of_orList v hxs).1 hC
  by_cases hxl : x = l
  · exact .inr (hxl ▸ hvx)
  left
  rw [hD]
  exact (holds_mkOr v _).2 ⟨x, (List.mem_erase_of_ne hxl).2 hx, hvx⟩

variable {a b r : Term}

lemma holds_eoListConcat (h : eoListConcat (.sym .or) (.bool false) a b = some r) :
    holds v r ↔ holds v a ∨ holds v b := by
  obtain ⟨xs, ys, hxs, hys, hr⟩ := eoListConcat_spec h
  rw [hr, holds_iff_of_orList v hxs, holds_iff_of_orList v hys]
  refine (holds_mkOr v _).trans ?_
  simp only [List.mem_append, or_and_right, exists_or]

lemma eoListDiff_holds (h : eoListDiff (.sym .or) (.bool false) a b = some r)
    (ha : holds v a) : holds v r ∨ holds v b := by
  obtain ⟨xs, ys, zs, hxs, hys, hr, _, hor⟩ := eoListDiff_spec h
  obtain ⟨x, hx, hvx⟩ := (holds_iff_of_orList v hxs).1 ha
  rcases hor x hx with hz | hy
  · left
    rw [hr]
    exact (holds_mkOr v _).2 ⟨x, hz, hvx⟩
  · exact .inr ((holds_iff_of_orList v hys).2 ⟨x, hy, hvx⟩)

lemma holds_eoListSetof (h : eoListSetof (.sym .or) (.bool false) a = some r) :
    holds v r ↔ holds v a := by
  obtain ⟨xs, ys, hxs, hr, hsub, hsup⟩ := eoListSetof_spec h
  rw [hr, holds_iff_of_orList v hxs]
  refine (holds_mkOr v _).trans ⟨?_, ?_⟩
  · rintro ⟨x, hx, hvx⟩
    exact ⟨x, hsub hx, hvx⟩
  · rintro ⟨x, hx, hvx⟩
    exact ⟨x, hsup hx, hvx⟩

lemma eoListMinclude_holds (h : eoListMinclude (.sym .or) (.bool false) a b = some (.bool true))
    (ha : holds v a) : holds v b := by
  obtain ⟨xs, ys, hxs, hys, hcount⟩ := eoListMinclude_spec h
  obtain ⟨x, hx, hvx⟩ := (holds_iff_of_orList v hxs).1 ha
  refine (holds_iff_of_orList v hys).2 ⟨x, ?_, hvx⟩
  have hpos : 0 < xs.count x := List.count_pos_iff.2 hx
  exact List.count_pos_iff.1 (hpos.trans_le (hcount.1 rfl x))

/-- The chain invariant: the clause obtained so far holds, or no pivot that
earlier clauses may still drop does. -/
def ChainInv (v : Term → Prop) (p : Term × Term) : Prop := holds v p.1 ∨ ¬ holds v p.2

lemma chainMResolveRecStep_spec {p q : Term × Term} {Cc pol L : Term}
    (h : chainMResolveRecStep p Cc pol L = some q) (hp : ChainInv v p) (hC : holds v Cc) :
    ChainInv v q := by
  unfold chainMResolveRecStep at h
  obtain ⟨lp, hlp, h⟩ := bind_inv h
  obtain ⟨ln, hln, h⟩ := bind_inv h
  have hcompl := eoIte_complementary (v := v) hlp hln
  unfold ChainInv at hp ⊢
  split at h
  · -- the clause is the negated pivot, so the pivot is false
    rename_i hCc
    cases h
    simp only [holds_or]
    have : holds v ln := hCc ▸ hC
    tauto
  obtain ⟨D, hD, h⟩ := bind_inv h
  obtain ⟨C, hconcat, h⟩ := map_inv h
  subst h
  simp only [holds_or, holds_eoListConcat hconcat]
  have hdiff := eoListDiff_holds (v := v) hD hC
  simp only [holds_or] at hdiff
  tauto

lemma chainMResolveRec_spec : ∀ {Cs pols lits : Term} {p : Term × Term},
      chainMResolveRec Cs pols lits = some p → holds v Cs → ChainInv v p := by
  intro Cs pols lits
  induction Cs, pols, lits using chainMResolveRec.induct with
  | case1 =>
    intro p h _
    cases h
    exact .inr (by simp)
  | case2 C1 Cs pol pols L lits ih =>
    intro p h hC
    rw [chainMResolveRec] at h
    obtain ⟨q, hq, h⟩ := bind_inv h
    rw [holds_and] at hC
    exact chainMResolveRecStep_spec h (ih hq hC.2) hC.1
  | case3 Cs pols lits h1 h2 =>
    intro p h _
    rw [chainMResolveRec] at h
    · contradiction
    · exact h1
    · exact h2

/-- The clause that a chain of resolutions yields follows from its premises. -/
lemma chainMResolve_spec {C pols lits : Term} (h : chainMResolve C pols lits = some r)
    (hC : holds v C) : holds v r := by
  unfold chainMResolve at h
  split at h
  swap
  · cases h
  rename_i C1 C2
  obtain ⟨p, hp, h⟩ := bind_inv h
  rw [holds_and] at hC
  have hinv := chainMResolveRec_spec hp hC.2
  unfold chainMResolveFinal at h
  split at h
  swap
  · cases h
  rename_i D L rl
  simp only [ChainInv, holds_or] at hinv
  split at h
  · rename_i hL
    cases h
    have : holds v L := hL ▸ hC.1
    tauto
  obtain ⟨E, hE, h⟩ := bind_inv h
  have hdiff := eoListDiff_holds (v := v) hE hC.1
  rw [holds_or] at hdiff
  rw [holds_eoListConcat h]
  tauto

lemma chainMResolvent_holds {Fs : List Term} {pols lits Cc : Term}
    (h : chainMResolvent Fs pols lits = some Cc) (hFs : ∀ F ∈ Fs, holds v F) :
    holds v Cc := by
  obtain ⟨C, hC, hset⟩ := bind_inv h
  rw [holds_eoListSetof hset]
  exact chainMResolve_spec hC ((holds_mkAnd v Fs).2 hFs)

end Programs

/-! ## The sound rules -/

/-- Every Boolean interpretation that makes all of `Fs` true makes `F` true. -/
def Entails (Fs : List Term) (F : Term) : Prop :=
  ∀ v : Term → Prop, (∀ G ∈ Fs, holds v G) → holds v F

/-- `$resolve` is sound, whichever of the two clauses drops its literal. -/
lemma resolve_holds {v : Term → Prop} {C1 C2 pol L r : Term}
    (h : resolve C1 C2 pol L = some r) (h1 : holds v C1) (h2 : holds v C2) : holds v r := by
  unfold resolve at h
  obtain ⟨lp, hlp, h⟩ := bind_inv h
  obtain ⟨ln, hln, h⟩ := bind_inv h
  obtain ⟨D1, hD1, h⟩ := bind_inv h
  obtain ⟨D2, hD2, h⟩ := bind_inv h
  obtain ⟨C, hC, hr⟩ := map_inv h
  have hcompl := eoIte_complementary (v := v) hlp hln
  have hd1 := removeMaybeSelf_spec hD1 ((holds_toClause v C1).2 h1)
  have hd2 := removeMaybeSelf_spec hD2 ((holds_toClause v C2).2 h2)
  rw [← hr, holds_fromClause, holds_eoListConcat hC]
  tauto

lemma chainResolution_holds {v : Term → Prop} {Fs : List Term} {pols lits r : Term}
    (h : chainResolution Fs pols lits = some r) (hFs : ∀ F ∈ Fs, holds v F) : holds v r := by
  obtain ⟨C, hC, hr⟩ := map_inv h
  rw [← hr, holds_fromClause]
  exact chainMResolve_spec hC ((holds_mkAnd v Fs).2 hFs)

lemma factoring_holds {v : Term → Prop} {C r : Term} (h : factoring C = some r)
    (hC : holds v C) : holds v r := by
  obtain ⟨D, hD, hr⟩ := map_inv h
  rw [← hr, holds_fromClause, holds_eoListSetof hD]
  exact hC

lemma reordering_holds {v : Term → Prop} {C1 C2 r : Term} (h : reordering C1 C2 = some r)
    (hC : holds v C1) : holds v r := by
  unfold reordering at h
  split at h
  · rename_i hincl
    cases h
    exact eoListMinclude_holds hincl hC
  · cases h

/-- `resolution`, `chain_resolution`, `factoring` and `reordering` only
conclude what their premises entail, for every choice of premises,
polarities and pivots. -/
theorem clausal_rules_sound :
    (∀ C1 C2 pol L r, resolution C1 C2 pol L = some r → Entails [C1, C2] r) ∧
    (∀ Fs pols lits r, chainResolution Fs pols lits = some r → Entails Fs r) ∧
    (∀ C r, factoring C = some r → Entails [C] r) ∧
    (∀ C1 C2 r, reordering C1 C2 = some r → Entails [C1] r) := by
  refine ⟨?_, ?_, ?_, ?_⟩
  · intro C1 C2 pol L r h v hv
    exact resolve_holds h (hv C1 (by simp)) (hv C2 (by simp))
  · intro Fs pols lits r h v hv
    exact chainResolution_holds h hv
  · intro C r h v hv
    exact factoring_holds h (hv C (by simp))
  · intro C1 C2 r h v hv
    exact reordering_holds h (hv C1 (by simp))

/-- A chain in which the pivot occurs twice in the first premise, so that one
copy stays behind, and a resolution on a unit premise. -/
theorem clausal_rules_sound_chain :
    Entails [mkOr [.const 0, .const 0, .const 1], mkOr [uop .not (.const 0), .const 2]]
      (mkOr [.const 0, .const 1, .const 2]) ∧
    Entails [mkOr [.const 0, .const 1], uop .not (.const 0)] (.const 1) :=
  ⟨clausal_rules_sound.2.1 _ (bop .listCons (.bool true) (.sym .listNil))
      (bop .listCons (.const 0) (.sym .listNil)) _ (by decide),
    clausal_rules_sound.1 _ _ (.bool true) (.const 0) _ (by decide)⟩

/-! ## `chain_m_resolution` -/

/-- What the side condition of `chain_m_resolution` is documented to check:
the requested clause is the computed one, or has all of its literals. -/
def Covers (Cc Cr : Term) : Prop :=
  fromClause Cc = Cr ∨ ∃ xs ys, orList Cc = some xs ∧ orList Cr = some ys ∧ xs ⊆ ys

lemma Covers.holds {v : Term → Prop} {Cc Cr : Term} (h : Covers Cc Cr)
    (hCc : EthosCpc.holds v Cc) : EthosCpc.holds v Cr := by
  rcases h with h | ⟨xs, ys, hxs, hys, hsub⟩
  · rw [← h, holds_fromClause]
    exact hCc
  · obtain ⟨x, hx, hvx⟩ := (holds_iff_of_orList v hxs).1 hCc
    exact (holds_iff_of_orList v hys).2 ⟨x, hsub hx, hvx⟩

lemma chainMTest_of_accepted {Fs : List Term} {Cr pols lits Cc : Term}
    (hCc : chainMResolvent Fs pols lits = some Cc)
    (h : chainMResolution Fs Cr pols lits = some Cr) : chainMTest Cc Cr = some (.bool true) := by
  unfold chainMResolution at h
  split at h
  · rename_i htest
    rwa [hCc] at htest
  · cases h

private lemma filterWith_setof_nodup : ∀ (xs seen : List Term), xs.Nodup → (∀ x ∈ xs, x ∉ seen) →
      Library.filterWith setofStep seen xs = xs := by
  intro xs
  induction xs with
  | nil => intro seen _ _; rfl
  | cons x xs ih =>
    intro seen hnd hdisj
    have hx : x ∉ seen := hdisj x (by simp)
    have hrec := ih (x :: seen) (List.nodup_cons.1 hnd).2 (by
      intro y hy
      have hyx : y ≠ x := by
        rintro rfl
        exact (List.nodup_cons.1 hnd).1 hy
      simp [hyx, hdisj y (by simp [hy])])
    simp [Library.filterWith, setofStep, hx, hrec]

private lemma filterWith_diff_fresh : ∀ (xs : List Term) (c : Term → Nat), (∀ x ∈ xs, c x = 0) →
      Library.filterWith diffStep c xs = xs := by
  intro xs
  induction xs with
  | nil => intro c _; rfl
  | cons x xs ih =>
    intro c hc
    have hx : c x = 0 := hc x (by simp)
    have hrec := ih (fun y => if y = x then c y - 1 else c y) (by
      intro y hy
      have := hc y (by simp [hy])
      simp [this])
    simp [Library.filterWith, diffStep, hx, hrec]

variable {xs : List Term}

lemma eoListSetof_mkOr_nodup (hnd : xs.Nodup) :
    eoListSetof (.sym .or) (.bool false) (mkOr xs) = some (mkOr xs) := by
  unfold eoListSetof
  rw [orList_mkOr, map_some, rebuild_spec setofStep _ (mkOr_eq xs),
    filterWith_setof_nodup xs [] hnd (by simp)]
  rfl

lemma eoListDiff_mkOr_head {P : Term} (hP : P ∉ xs) :
    eoListDiff (.sym .or) (.bool false) (mkOr (P :: xs)) (mkOr [P]) = some (mkOr xs) := by
  unfold eoListDiff
  rw [orList_mkOr, orList_mkOr]
  simp only [bind_some, map_some, Option.some.injEq]
  split
  · rename_i heq
    have := mkOr_injective heq
    rw [(List.cons.inj this).2]
    rfl
  rw [rebuild_spec diffStep _ (mkOr_eq (P :: xs))]
  have hfresh := filterWith_diff_fresh xs
    (fun y => if y = P then [P].count y - 1 else [P].count y) (by
      intro x hx
      have : x ≠ P := by
        rintro rfl
        exact hP hx
      simp [this, Ne.symm this])
  simp [Library.filterWith, diffStep, hfresh, mkOr]

/-- Any clause without repetitions is the computed clause of some chain of
two premises: resolve it, extended by a fresh pivot, with the negation of
the pivot. -/
lemma chainMResolvent_fresh_pivot {P : Term} (hnd : xs.Nodup) (hP : P ∉ xs) :
    chainMResolvent [mkOr (P :: xs), uop .not P] (bop .listCons (.bool true) (.sym .listNil))
      (bop .listCons P (.sym .listNil)) = some (mkOr xs) := by
  have hne : mkOr (P :: xs) ≠ P := by
    intro h
    have := congrArg Term.size h
    simp only [mkOr_cons, Term.size] at this
    omega
  have hconcat : eoListConcat (.sym .or) (.bool false) (mkOr xs) (.bool false) =
      some (mkOr xs) := by
    unfold eoListConcat
    rw [orList_mkOr]
    rfl
  have hrec : chainMResolveRec (mkAnd [uop .not P]) (bop .listCons (.bool true) (.sym .listNil))
      (bop .listCons P (.sym .listNil)) = some (.bool false, mkOr [P]) := by
    simp [chainMResolveRec, chainMResolveRecStep, eoIte]
  have hfinal : chainMResolveFinal (mkOr (P :: xs)) (.bool false, mkOr [P]) = some (mkOr xs) := by
    simp only [mkOr_cons P [], chainMResolveFinal, if_neg hne]
    rw [← mkOr_cons P [], eoListDiff_mkOr_head hP]
    exact hconcat
  unfold chainMResolvent chainMResolve
  rw [mkAnd_cons]
  simp only [hrec, bind_some, hfinal, eoListSetof_mkOr_nodup hnd]

/-- `chain_m_resolution` is sound on every input on which the requested
clause covers the computed one.  Conversely, for clauses of distinct
propositional constants, the rule is sound on all chains that yield `Cc`
exactly if its test accepts no clause that misses a literal of `Cc`. -/
theorem chainMResolution_sound_iff (Cr : Term) :
    (∀ Fs pols lits Cc, chainMResolvent Fs pols lits = some Cc → Covers Cc Cr →
      chainMResolution Fs Cr pols lits = some Cr → Entails Fs Cr) ∧
    (∀ xs : List Nat, xs.Nodup →
      ((∀ Fs pols lits, chainMResolvent Fs pols lits = some (mkOr (xs.map .const)) →
          chainMResolution Fs Cr pols lits = some Cr → Entails Fs Cr) ↔
        (chainMTest (mkOr (xs.map .const)) Cr = some (.bool true) →
          Covers (mkOr (xs.map .const)) Cr))) := by
  have hsound : ∀ Fs pols lits Cc, chainMResolvent Fs pols lits = some Cc → Covers Cc Cr →
      chainMResolution Fs Cr pols lits = some Cr → Entails Fs Cr := by
    intro Fs pols lits Cc hCc hcov _ v hv
    exact hcov.holds (chainMResolvent_holds hCc hv)
  refine ⟨hsound, ?_⟩
  intro xs hnd
  have hinj : Function.Injective Term.const := fun _ _ h => Term.const.inj h
  constructor
  · intro hall htest
    by_contra hcov
    -- the test went through `eo::list_minclude`, so both are clauses
    have hincl : eoListMinclude (.sym .or) (.bool false) Cr (mkOr (xs.map .const)) =
        some (.bool true) := by
      unfold chainMTest at htest
      split at htest
      · rename_i heq
        exact absurd (.inl heq) hcov
      · exact htest
    obtain ⟨ys, zs, hys, hzs, hcount⟩ := eoListMinclude_spec hincl
    -- a literal of the computed clause that the requested one misses
    obtain ⟨n, hn, hny⟩ : ∃ n ∈ xs, Term.const n ∉ ys := by
      by_contra hno
      push Not at hno
      refine hcov (.inr ⟨xs.map .const, ys, orList_mkOr _, hys, ?_⟩)
      intro x hx
      obtain ⟨n, hn, rfl⟩ := List.mem_map.1 hx
      exact hno n hn
    obtain ⟨p, hp⟩ := Infinite.exists_notMem_finset xs.toFinset
    have hp : p ∉ xs := by simpa using hp
    have hpn : n ≠ p := by
      rintro rfl
      exact hp hn
    have hres := chainMResolvent_fresh_pivot (P := .const p) (hnd.map hinj) (by simpa using hp)
    have hacc : chainMResolution [mkOr (.const p :: xs.map .const), uop .not (.const p)] Cr
        (bop .listCons (.bool true) (.sym .listNil))
        (bop .listCons (.const p) (.sym .listNil)) = some Cr := by
      unfold chainMResolution
      rw [hres, bind_some, if_pos htest]
    -- only that literal is true
    have hCr := hall _ _ _ hres hacc (fun t => t = .const n) (by
      intro G hG
      simp only [List.mem_cons, List.not_mem_nil, or_false] at hG
      rcases hG with rfl | rfl
      · refine (holds_mkOr _ _).2 ⟨.const n, ?_, ?_⟩
        · exact .tail _ (List.mem_map.2 ⟨n, hn, rfl⟩)
        · exact (holds_const _ n).2 rfl
      rw [holds_not, holds_const]
      intro h
      exact hpn (hinj h).symm)
    obtain ⟨y, hy, hvy⟩ := (holds_iff_of_orList _ hys).1 hCr
    -- every literal of the requested clause is a constant of the computed one
    have hyx : y ∈ xs.map Term.const := by
      have hzs' : zs = xs.map Term.const := Option.some.inj (hzs.symm.trans (orList_mkOr _))
      have hpos : 0 < ys.count y := List.count_pos_iff.2 hy
      exact hzs' ▸ List.count_pos_iff.1 (hpos.trans_le (hcount.1 rfl y))
    obtain ⟨m, hm, rfl⟩ := List.mem_map.1 hyx
    rw [holds_const] at hvy
    exact hny (hvy ▸ hy)
  · intro htest Fs pols lits hCc hacc
    exact hsound Fs pols lits _ hCc (htest (chainMTest_of_accepted hCc hacc)) hacc

/-- From `(or a b)` and `(not a)` the rule accepts the conclusion `false`. -/
theorem chainMResolution_accepts_false :
    chainMResolution [mkOr [.const 0, .const 1], uop .not (.const 0)] (.bool false)
        (bop .listCons (.bool true) (.sym .listNil))
        (bop .listCons (.const 0) (.sym .listNil)) = some (.bool false) ∧
      ¬ Entails [mkOr [.const 0, .const 1], uop .not (.const 0)] (.bool false) := by
  refine ⟨by decide, ?_⟩
  intro h
  have := h (fun t => t = .const 1) (by
    intro G hG
    simp only [List.mem_cons, List.not_mem_nil, or_false] at hG
    rcases hG with rfl | rfl <;> simp)
  simp at this

/-- A chain whose requested conclusion repeats the computed clause. -/
theorem chainMResolution_sound_iff_unit :
    Entails [mkOr [.const 0, .const 1], uop .not (.const 0)] (.const 1) :=
  (chainMResolution_sound_iff (.const 1)).1 _ (bop .listCons (.bool true) (.sym .listNil))
    (bop .listCons (.const 0) (.sym .listNil)) (mkOr [.const 1]) (by decide)
    (.inl (by decide)) (by decide)

end EthosCpc
