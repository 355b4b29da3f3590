import EthosCpc.Cvc5.BoolProofChecker
import EthosCpc.Library.PivotRemoval

/-!
# The Boolean rules of cvc5 and of the signature

On lists, every rule of the signature is a list operation: `factoring` is
the loop of cvc5, and a chain is a batch in the sense of `PivotRemoval`
where cvc5 takes the pivots out one at a time.

`FACTORING` agrees always.  The others agree under conditions on how often
literals are repeated, since the signature counts repetitions where cvc5
compares sets, and it takes one occurrence of a pivot out of every premise
where cvc5 takes one or all of them out of the clause so far.
-/

namespace EthosCpc.Cvc5

open Library
open EthosCpc.Term (bop uop)
open Option (bind_some map_some some.inj)
open List (count_diff count_pos_iff erase_cons_head mem_cons)

/-! ## The operators on clauses -/

lemma mkOrNode_eq (xs : List Term) : fromClause (mkOr xs) = mkOrNode xs := by
  match xs with
  | [] => rfl
  | [x] => rfl
  | x :: y :: xs => rfl

lemma eoListConcat_mkOr (xs ys : List Term) :
    eoListConcat (.sym .or) (.bool false) (mkOr xs) (mkOr ys) = some (mkOr (xs ++ ys)) := by
  have hys : isNAryList (.sym .or) (.bool false) (mkOr ys) = true :=
    isNAryList_iff.2 ⟨ys, orList_mkOr ys⟩
  obtain ⟨r, hr⟩ : ∃ r, eoListConcat (.sym .or) (.bool false) (mkOr xs) (mkOr ys) = some r := by
    unfold eoListConcat
    rw [if_pos hys, orList_mkOr]
    exact ⟨_, rfl⟩
  obtain ⟨xs', ys', hxs', hys', hr'⟩ := eoListConcat_spec hr
  rw [orList_mkOr] at hxs' hys'
  cases hxs'
  cases hys'
  rw [hr, hr']
  rfl

lemma eoListErase_mkOr (xs : List Term) (l : Term) :
    eoListErase (.sym .or) (.bool false) (mkOr xs) l = some (mkOr (xs.erase l)) := by
  obtain ⟨r, hr⟩ : ∃ r, eoListErase (.sym .or) (.bool false) (mkOr xs) l = some r := by
    unfold eoListErase
    rw [orList_mkOr]
    exact ⟨_, rfl⟩
  obtain ⟨xs', hxs', hr'⟩ := eoListErase_spec hr
  rw [orList_mkOr] at hxs'
  cases hxs'
  rw [hr, hr']
  rfl

lemma diff_self_nil (xs : List Term) : xs.diff xs = [] := by
  refine List.eq_nil_iff_forall_not_mem.2 ?_
  intro x hx
  have hpos := count_pos_iff.2 hx
  rw [count_diff] at hpos
  omega

lemma eoListDiff_mkOr (xs ys : List Term) :
    eoListDiff (.sym .or) (.bool false) (mkOr xs) (mkOr ys) = some (mkOr (xs.diff ys)) := by
  unfold eoListDiff
  rw [orList_mkOr, orList_mkOr, bind_some, map_some]
  split
  swap
  · rw [rebuild_spec diffStep _ (mkOr_eq xs)]
    exact congrArg (fun zs => some (mkOr zs)) (filterWith_count_eq_diff xs ys)
  rename_i heq
  cases mkOr_injective heq
  rw [diff_self_nil]
  rfl

lemma eoListMinclude_eq_true_iff {a b : Term} {xs ys : List Term} (hxs : orList a = some xs)
    (hys : orList b = some ys) :
    eoListMinclude (.sym .or) (.bool false) a b = some (.bool true) ↔
      ∀ x, xs.count x ≤ ys.count x := by
  obtain ⟨v, hv⟩ : ∃ v, eoListMinclude (.sym .or) (.bool false) a b = some (.bool v) := by
    unfold eoListMinclude
    rw [show getNAryChildren (.sym .or) (.bool false) a = some xs from hxs,
      show getNAryChildren (.sym .or) (.bool false) b = some ys from hys]
    simp only [bind_some, map_some, Option.some.injEq]
    split
    · exact ⟨true, rfl⟩
    · exact ⟨_, rfl⟩
  obtain ⟨xs', ys', hxs', hys', hcount⟩ := eoListMinclude_spec hv
  cases hxs.symm.trans hxs'
  cases hys.symm.trans hys'
  rw [hv, ← hcount]
  simp

lemma filterWith_setof_eq (xs seen : List Term) :
    filterWith setofStep seen xs = factorLoop seen xs := by
  induction xs generalizing seen with
  | nil => rfl
  | cons x xs ih =>
    by_cases hx : x ∈ seen
    swap
    · simp only [filterWith, setofStep, factorLoop, hx, not_false_eq_true, decide_true, if_true,
        if_false, ih]
    -- the loop of the signature marks a literal again
    have hperm : ∀ seen seen' : List Term, (∀ y, y ∈ seen ↔ y ∈ seen') →
        factorLoop seen xs = factorLoop seen' xs := by
      clear ih
      induction xs with
      | nil => intro _ _ _; rfl
      | cons z xs ih =>
        intro seen seen' h
        simp only [factorLoop, h z]
        rw [ih seen seen' h, ih (z :: seen) (z :: seen') (by simp [h])]
    simp only [filterWith, setofStep, factorLoop, hx, not_true_eq_false, decide_false,
      Bool.false_eq_true, if_false, if_true, ih]
    exact hperm _ _ (fun y => by
      simp only [mem_cons, or_iff_right_iff_imp]
      rintro rfl
      exact hx)

lemma eoListSetof_mkOr (xs : List Term) :
    eoListSetof (.sym .or) (.bool false) (mkOr xs) = some (mkOr (factorLoop [] xs)) := by
  unfold eoListSetof
  rw [orList_mkOr, map_some, rebuild_spec setofStep _ (mkOr_eq xs), filterWith_setof_eq]
  rfl

variable {x : Term}

lemma mem_factorLoop {seen xs : List Term} : x ∈ factorLoop seen xs ↔ x ∈ xs ∧ x ∉ seen := by
  induction xs generalizing seen with
  | nil => simp [factorLoop]
  | cons y xs ih =>
    rw [factorLoop]
    split
    · rw [ih, mem_cons]
      grind
    · rw [mem_cons, ih, mem_cons, mem_cons]
      grind

lemma nodup_factorLoop (seen xs : List Term) : (factorLoop seen xs).Nodup := by
  induction xs generalizing seen with
  | nil => exact List.nodup_nil
  | cons y xs ih =>
    rw [factorLoop]
    split
    · exact ih seen
    refine List.nodup_cons.2 ⟨?_, ih _⟩
    rw [mem_factorLoop]
    simp

/-! ## Clauses -/

/-- The premise of a link as the signature reads it. -/
def pivotClause (C elim : Term) : Option (List Term) := if C = elim then some [C] else orList C

variable {xs : List Term}

lemma orList_of_orKids {C : Term} (h : orKids C = some xs) :
    orList C = some xs ∧ 2 ≤ xs.length := by
  obtain ⟨hxs, hlen⟩ := Option.filter_eq_some_iff.1 h
  exact ⟨hxs, by simpa using hlen⟩

lemma clauseOf_of_orKids {C : Term} (h : orKids C = some xs) (elim : Term) :
    clauseOf C elim = if C = elim then [C] else xs := by
  rw [clauseOf, h]

variable {C elim : Term}

lemma pivotClause_of_mem (h : elim ∈ clauseOf C elim) :
    pivotClause C elim = some (clauseOf C elim) := by
  unfold pivotClause
  by_cases heq : C = elim
  · rw [if_pos heq]
    unfold clauseOf
    split
    · rw [if_pos heq]
    · rfl
  rw [if_neg heq]
  unfold clauseOf at h ⊢
  split at h
  · rename_i xs hxs
    rw [if_neg heq]
    exact (orList_of_orKids hxs).1
  · exact absurd (List.mem_singleton.1 h).symm heq

/-- The steps of a chain as the signature reads them. -/
def pivotSteps : List Term → List Bool → List Term → Option (List (PivotStep Term))
  | [], [], [] => some []
  | C :: Cs, pol :: pols, L :: lits =>
    (pivotClause C (elims pol L).2).bind fun c =>
      (pivotSteps Cs pols lits).map fun st => ⟨(elims pol L).1, (elims pol L).2, c⟩ :: st
  | _, _, _ => none

/-- The first clause and the steps of a chain. -/
def pivotChain (C : Term) (Cs : List Term) (pols : List Bool) (lits : List Term) :
    Option (List Term × List (PivotStep Term)) :=
  match pols, lits with
  | pol :: pols, L :: lits =>
    (pivotClause C (elims pol L).1).bind fun c0 =>
      (pivotSteps Cs (pol :: pols) (L :: lits)).map fun st => (c0, st)
  | _, _ => none

/-! ## What the programs compute -/

lemma eoIte_elims (pol : Bool) (L : Term) :
    eoIte (.bool pol) L (uop .not L) = some (elims pol L).1 ∧
      eoIte (.bool pol) (uop .not L) L = some (elims pol L).2 := by
  cases pol <;> exact ⟨rfl, rfl⟩

/-- One link takes a batch out of its premise. -/
lemma chainMResolveRecStep_eq (B P : List Term) (C : Term) (pol : Bool) (L : Term) :
    chainMResolveRecStep (mkOr B, mkOr P) C (.bool pol) L =
      (pivotClause C (elims pol L).2).map fun c =>
        (mkOr (c.diff ((elims pol L).2 :: P) ++ B), mkOr ((elims pol L).1 :: P)) := by
  unfold chainMResolveRecStep pivotClause
  rw [(eoIte_elims pol L).1, (eoIte_elims pol L).2, bind_some, bind_some]
  by_cases heq : C = (elims pol L).2
  · rw [if_pos heq.symm, if_pos heq, map_some, heq, List.diff_cons, erase_cons_head, List.nil_diff]
    rfl
  rw [if_neg (Ne.symm heq), if_neg heq]
  cases hC : orList C with
  | none =>
    rw [eoListDiff, show getNAryChildren (.sym .or) (.bool false) C = none from hC]
    rfl
  | some c =>
    rw [eq_mkOr_of_orList hC, ← mkOr_cons, eoListDiff_mkOr, bind_some, eoListConcat_mkOr]
    rfl

lemma chainMResolveFinal_eq (C p : Term) (B P : List Term) :
    chainMResolveFinal C (mkOr B, mkOr (p :: P)) =
      (pivotClause C p).map fun c => mkOr (c.diff (p :: P) ++ B) := by
  rw [mkOr_cons, chainMResolveFinal]
  unfold pivotClause
  by_cases heq : C = p
  · rw [if_pos heq, if_pos heq, map_some, heq, List.diff_cons, erase_cons_head, List.nil_diff]
    rfl
  rw [if_neg heq, if_neg heq]
  cases hC : orList C with
  | none =>
    rw [eoListDiff, show getNAryChildren (.sym .or) (.bool false) C = none from hC]
    rfl
  | some c =>
    rw [eq_mkOr_of_orList hC, ← mkOr_cons, eoListDiff_mkOr, bind_some, eoListConcat_mkOr]
    rfl

lemma chainMResolveRec_eq (Cs : List Term) (pols : List Bool) (lits : List Term) :
    chainMResolveRec (mkAnd Cs) (mkList (pols.map .bool)) (mkList lits) =
      (pivotSteps Cs pols lits).map fun st => (mkOr (batchRest st), mkOr (pivots st)) := by
  induction Cs generalizing pols lits with
  | nil =>
    cases pols <;> cases lits <;> rfl
  | cons C Cs ih =>
    match pols, lits with
    | [], [] => rfl
    | [], _ :: _ => rfl
    | _ :: _, [] => rfl
    | pol :: pols, L :: lits =>
      have hstep : chainMResolveRec (mkAnd (C :: Cs)) (mkList ((pol :: pols).map .bool))
          (mkList (L :: lits)) =
          (chainMResolveRec (mkAnd Cs) (mkList (pols.map .bool)) (mkList lits)).bind
            fun p => chainMResolveRecStep p C (.bool pol) L := rfl
      rw [hstep, ih, pivotSteps]
      cases pivotSteps Cs pols lits with
      | none => cases pivotClause C (elims pol L).2 <;> rfl
      | some st =>
        rw [map_some, bind_some, chainMResolveRecStep_eq]
        cases pivotClause C (elims pol L).2 <;> rfl

lemma chainMResolve_eq (C : Term) (Cs : List Term) (pols : List Bool) (lits : List Term) :
    chainMResolve (mkAnd (C :: Cs)) (mkList (pols.map .bool)) (mkList lits) =
      (pivotChain C Cs pols lits).map fun q => mkOr (batch q.1 q.2) := by
  have hchain : chainMResolve (mkAnd (C :: Cs)) (mkList (pols.map .bool)) (mkList lits) =
      (chainMResolveRec (mkAnd Cs) (mkList (pols.map .bool)) (mkList lits)).bind
        (chainMResolveFinal C) := rfl
  rw [hchain, chainMResolveRec_eq]
  match pols, lits with
  | [], [] => cases Cs <;> rfl
  | [], _ :: _ => cases Cs <;> rfl
  | _ :: _, [] => cases Cs <;> rfl
  | pol :: pols, L :: lits =>
    rw [pivotChain]
    cases Cs with
    | nil => cases pivotClause C (elims pol L).1 <;> rfl
    | cons D Cs =>
      rw [pivotSteps]
      cases pivotClause D (elims pol L).2 with
      | none => cases pivotClause C (elims pol L).1 <;> rfl
      | some d =>
        cases pivotSteps Cs pols lits with
        | none => cases pivotClause C (elims pol L).1 <;> rfl
        | some st =>
          refine (chainMResolveFinal_eq C _ _ _).trans ?_
          cases pivotClause C (elims pol L).1 <;> rfl

/-! ## `mkOr` on a part of a clause -/

lemma size_lt_mkOr (hx : x ∈ xs) : x.size < (mkOr xs).size := by
  induction xs with
  | nil => cases hx
  | cons y xs ih =>
    rw [mkOr_cons]
    simp only [Term.size]
    rcases mem_cons.1 hx with rfl | hx
    · omega
    · have := ih hx
      omega

lemma mkOrNode_eq_iff {B R : List Term} (h : B.Sublist R) :
    mkOrNode B = mkOrNode R ↔ B = R ∨ (B = [] ∧ R = [.bool false]) := by
  match B, R with
  | [], [] => simp
  | [], [x] => simp [mkOrNode, eq_comm]
  | [], x :: y :: R => simp [mkOrNode]
  | [x], [y] => simp [mkOrNode]
  | [x], y :: z :: R =>
    have hne : mkOrNode [x] ≠ mkOrNode (y :: z :: R) := by
      intro heq
      have hlt := size_lt_mkOr (h.subset (List.mem_singleton.2 rfl))
      rw [show x = mkOr (y :: z :: R) from heq] at hlt
      exact lt_irrefl _ hlt
    simp [hne]
  | x :: y :: B, [z] =>
    have := h.length_le
    simp at this
  | x :: y :: B, z :: w :: R =>
    have hinj : mkOrNode (x :: y :: B) = mkOrNode (z :: w :: R) ↔
        x :: y :: B = z :: w :: R := mkOr_injective.eq_iff
    simp [hinj]

/-! ## `RESOLUTION` -/

lemma length_orKids {C : Term} (h : orKids C = some xs) : 2 ≤ xs.length :=
  (orList_of_orKids h).2

lemma erase_clauseOf_eq_nil : (clauseOf C elim).erase elim = [] ↔ C = elim := by
  by_cases heq : C = elim
  · have hunit : clauseOf C elim = [elim] := by
      unfold clauseOf
      split
      · rw [if_pos heq, heq]
      · rw [heq]
    rw [hunit, erase_cons_head]
    exact iff_of_true rfl heq
  refine iff_of_false ?_ heq
  unfold clauseOf
  split
  swap
  · rw [List.erase_of_not_mem (by simpa using Ne.symm heq)]
    simp
  rename_i xs hxs
  rw [if_neg heq]
  intro hnil
  have hlen := List.length_erase_le (a := elim) (l := xs)
  have hge : xs.length - 1 ≤ (xs.erase elim).length := List.le_length_erase
  have := length_orKids hxs
  rw [hnil] at hge
  simp at hge
  omega

/-- What the signature keeps of a premise: all that cvc5 keeps, but no premise `false`. -/
lemma removeMaybeSelf_toClause (hC : IsNode C) (he : IsNode elim) :
    removeMaybeSelf elim (toClause C) =
      some (mkOr (if C = .bool false then [] else (clauseOf C elim).erase elim)) := by
  unfold toClause
  split
  · -- an or-list
    rename_i F1 F2
    obtain ⟨xs, hxs⟩ := Option.isSome_iff_exists.1 (hC ⟨F1, F2, rfl⟩)
    have hor : bop .or F1 F2 = mkOr xs := eq_mkOr_of_orList (orList_of_orKids hxs).1
    rw [if_neg (by simp), removeMaybeSelf, clauseOf_of_orKids hxs]
    by_cases heq : elim = bop .or F1 F2
    · rw [if_pos heq, if_pos heq.symm, heq, erase_cons_head]
      rfl
    · rw [if_neg heq, if_neg (Ne.symm heq), hor, eoListErase_mkOr]
  · rw [if_pos rfl, removeMaybeSelf]
    split
    · rfl
    · exact eoListErase_mkOr [] elim
  rename_i hor hfalse
  have hkids : orKids C = none := by
    cases hk : orKids C with
    | none => rfl
    | some xs =>
      have hC := eq_mkOr_of_orList (orList_of_orKids hk).1
      match xs, length_orKids hk with
      | x :: y :: xs, _ => exact absurd hC (hor _ _)
  have hne : elim ≠ bop .or C (.bool false) := by
    rintro rfl
    have hsome := he ⟨_, _, rfl⟩
    have honly : orList (bop .or C (.bool false)) = some [C] := orList_mkOr [C]
    rw [orKids, honly] at hsome
    cases hsome
  rw [if_neg hfalse, removeMaybeSelf, if_neg hne, clauseOf, hkids]
  exact eoListErase_mkOr [C] elim

lemma isNode_not (a : Term) : IsNode (uop .not a) := by
  rintro ⟨x, y, h⟩
  cases h

variable {L C1 C2 D : Term}

lemma isNode_elims (hL : IsNode L) (pol : Bool) :
    IsNode (elims pol L).1 ∧ IsNode (elims pol L).2 := by
  cases pol
  · exact ⟨isNode_not L, hL⟩
  · exact ⟨hL, isNode_not L⟩

lemma resolution_eq (h1 : IsNode C1) (h2 : IsNode C2) (hL : IsNode L) (pol : Bool) :
    resolution C1 C2 (.bool pol) L = some (mkOrNode
      ((if C1 = .bool false then [] else (clauseOf C1 (elims pol L).1).erase (elims pol L).1) ++
        (if C2 = .bool false then [] else (clauseOf C2 (elims pol L).2).erase (elims pol L).2))) := by
  unfold resolution resolve
  rw [(eoIte_elims pol L).1, (eoIte_elims pol L).2, bind_some, bind_some,
    removeMaybeSelf_toClause h1 (isNode_elims hL pol).1,
    removeMaybeSelf_toClause h2 (isNode_elims hL pol).2, bind_some, bind_some,
    eoListConcat_mkOr, map_some, mkOrNode_eq]

lemma erase_clauseOf_false (elim : Term) :
    (clauseOf (.bool false) elim).erase elim = if elim = .bool false then [] else [.bool false] := by
  have hunit : clauseOf (.bool false) elim = [.bool false] := rfl
  rw [hunit, List.erase_cons]
  by_cases heq : elim = .bool false
  · simp [heq]
  · simp [heq, Ne.symm heq]

/-- A premise `false` that is not resolved on is a literal in cvc5 and nothing in the
signature. -/
lemma resolution_agrees_iff (h1 : IsNode C1) (h2 : IsNode C2) (hL : IsNode L) (pol : Bool) :
    resolution C1 C2 (.bool pol) L = some (checkResolution C1 C2 pol L) ↔
      (C1 = .bool false → (elims pol L).1 = .bool false ∨ C2 = (elims pol L).2) ∧
      (C2 = .bool false → (elims pol L).2 = .bool false ∨ C1 = (elims pol L).1) := by
  rw [resolution_eq h1 h2 hL, checkResolution, Option.some.injEq]
  generalize (elims pol L).1 = p
  generalize (elims pol L).2 = n
  have hkeep : ∀ C e : Term, (if C = .bool false then [] else (clauseOf C e).erase e).Sublist
      ((clauseOf C e).erase e) := by
    intro C e
    split
    · exact List.nil_sublist _
    · exact List.Sublist.refl _
  rw [mkOrNode_eq_iff ((hkeep C1 p).append (hkeep C2 n))]
  by_cases hC1 : C1 = .bool false
  · by_cases hC2 : C2 = .bool false
    · subst hC1
      subst hC2
      rw [erase_clauseOf_false, erase_clauseOf_false]
      by_cases hp : p = .bool false
      · by_cases hn : n = .bool false
        · simp [hp, hn]
        · simp [hp, hn]
      by_cases hn : n = .bool false
      · simp [hp, hn]
      · simp [hp, hn, Ne.symm hp, Ne.symm hn]
    · subst hC1
      rw [erase_clauseOf_false, if_pos rfl, if_neg hC2]
      have hnil : (clauseOf C2 n).erase n = [] ↔ C2 = n := erase_clauseOf_eq_nil
      generalize (clauseOf C2 n).erase n = rest at hnil ⊢
      by_cases hp : p = .bool false
      · simp [hp, hC2]
      · simp [hp, hC2, hnil]
  by_cases hC2 : C2 = .bool false
  · subst hC2
    rw [erase_clauseOf_false, if_pos rfl, if_neg hC1]
    have hnil : (clauseOf C1 p).erase p = [] ↔ C1 = p := erase_clauseOf_eq_nil
    generalize (clauseOf C1 p).erase p = rest at hnil ⊢
    by_cases hn : n = .bool false
    · simp [hn, hC1]
    · simp [hn, hC1, hnil]
  · simp [hC1, hC2]

/-! ## `FACTORING` and `REORDERING` -/

lemma factoring_agrees {C : Term} (h : checkFactoring C = some D) : factoring C = some D := by
  obtain ⟨xs, hxs, h⟩ := bind_inv h
  split at h
  · cases h
  cases h
  unfold factoring
  rw [eq_mkOr_of_orList (orList_of_orKids hxs).1, eoListSetof_mkOr, map_some, mkOrNode_eq]

/-- The signature does not drop repetitions. -/
lemma reordering_agrees_iff (h : checkReordering C1 C2 = some D) :
    reordering C1 C2 = some D ↔ ∃ xs ys, orList C1 = some xs ∧ orList C2 = some ys ∧
      ∀ x, xs.count x ≤ ys.count x := by
  have hD : D = C2 := by
    unfold checkReordering at h
    split at h
    · exact (some.inj h).symm
    · cases h
  subst hD
  unfold reordering
  constructor
  · intro hacc
    split at hacc
    · rename_i hincl
      obtain ⟨xs, ys, hxs, hys, hcount⟩ := eoListMinclude_spec hincl
      exact ⟨xs, ys, hxs, hys, hcount.1 rfl⟩
    · cases hacc
  · rintro ⟨xs, ys, hxs, hys, hcount⟩
    rw [if_pos ((eoListMinclude_eq_true_iff hxs hys).2 hcount)]

/-! ## `CHAIN_RESOLUTION` -/

variable {pols : List Bool} {lits : List Term} {Cs : List Term}

lemma chainLinks_eq {lhs R : List Term} (h : chainLinks lhs Cs pols lits = some R) :
    ∃ st, pivotSteps Cs pols lits = some st ∧ chain lhs st = some R := by
  induction Cs generalizing lhs pols lits with
  | nil =>
    match pols, lits with
    | [], [] => exact ⟨[], rfl, h⟩
    | [], _ :: _ => contradiction
    | _ :: _, [] => contradiction
    | _ :: _, _ :: _ => contradiction
  | cons C Cs ih =>
    match pols, lits with
    | [], [] => contradiction
    | [], _ :: _ => contradiction
    | _ :: _, [] => contradiction
    | pol :: pols, L :: lits =>
      obtain ⟨lhs', hlink, hrest⟩ := bind_inv h
      simp only [chainLink] at hlink
      split at hlink
      swap
      · cases hlink
      rename_i hmem
      cases hlink
      obtain ⟨st, hst, hchain⟩ := ih hrest
      refine ⟨⟨(elims pol L).1, (elims pol L).2, clauseOf C (elims pol L).2⟩ :: st, ?_, ?_⟩
      · rw [pivotSteps, pivotClause_of_mem hmem.2, hst]
        rfl
      · rw [chain, if_pos hmem]
        exact hchain

lemma checkChainResolution_eq {C : Term} (h : checkChainResolution C Cs pols lits = some D) :
    ∃ c0 st R, pivotChain C Cs pols lits = some (c0, st) ∧ chain c0 st = some R ∧
      D = mkOrNode R := by
  unfold checkChainResolution at h
  split at h
  swap
  · cases h
  rename_i pol pols L lits
  obtain ⟨R, hR, hD⟩ := map_inv h
  obtain ⟨st, hst, hchain⟩ := chainLinks_eq hR
  refine ⟨_, st, R, ?_, hchain, hD.symm⟩
  -- there is a first link, and it found its pivot
  have hmem : (elims pol L).1 ∈ clauseOf C (elims pol L).1 := by
    cases Cs with
    | nil => contradiction
    | cons D Cs =>
      obtain ⟨lhs', hlink, _⟩ := bind_inv hR
      simp only [chainLink] at hlink
      split at hlink
      · rename_i hmem
        exact hmem.1
      · cases hlink
  rw [pivotChain, pivotClause_of_mem hmem, hst]
  rfl

variable {st : List (PivotStep Term)}

lemma chain_eq_false_iff {c0 R : List Term} (h : chain c0 st = some R) :
    R = [.bool false] ↔ allLits c0 st = {Term.bool false} + allPivots st := by
  rw [← chain_multiset h, add_left_inj]
  exact ⟨fun hR => hR ▸ rfl, fun hR => Multiset.coe_eq_singleton.1 hR⟩

/-- The signature takes a pivot out of every premise where cvc5 takes it out once. -/
lemma chainResolution_agrees_iff {C : Term} (h : checkChainResolution C Cs pols lits = some D) :
    chainResolution (C :: Cs) (mkList (pols.map .bool)) (mkList lits) = some D ↔
      ∃ c0 st, pivotChain C Cs pols lits = some (c0, st) ∧
        (removed c0 st = 2 * st.length ∨ allLits c0 st = {Term.bool false} + allPivots st) := by
  obtain ⟨c0, st, R, hread, hchain, rfl⟩ := checkChainResolution_eq h
  have hcpc : chainResolution (C :: Cs) (mkList (pols.map .bool)) (mkList lits) =
      some (mkOrNode (batch c0 st)) := by
    rw [chainResolution, chainMResolve_eq, hread, map_some, map_some, mkOrNode_eq]
  have hsub := batch_sublist_chain hchain
  rw [hcpc, Option.some.injEq, mkOrNode_eq_iff hsub, batch_eq_chain_iff hchain, hread]
  constructor
  · rintro (hrem | ⟨-, hR⟩)
    · exact ⟨c0, st, rfl, .inl hrem⟩
    · exact ⟨c0, st, rfl, .inr ((chain_eq_false_iff hchain).1 hR)⟩
  rintro ⟨c0', st', heq, hcond⟩
  cases heq
  rcases hcond with hrem | hfalse
  · exact .inl hrem
  -- a part of the clause `false` is this clause or nothing
  have hR := (chain_eq_false_iff hchain).2 hfalse
  by_cases hB : batch c0 st = []
  · exact .inr ⟨hB, hR⟩
  left
  rw [← batch_eq_chain_iff hchain]
  rw [hR] at hsub ⊢
  exact (List.sublist_singleton.1 hsub).resolve_left hB

/-! ## `CHAIN_M_RESOLUTION` -/

/-- A literal is left of a batch: in some clause it occurs more often than it is taken out. -/
def Stays (c0 : List Term) (st : List (PivotStep Term)) (y : Term) : Prop :=
  (pivots st).count y < c0.count y ∨
    ∃ pre s post, st = pre ++ s :: post ∧ (s.n :: pivots post).count y < s.c.count y

variable {y : Term}

lemma mem_batchRest : y ∈ batchRest st ↔
      ∃ pre s post, st = pre ++ s :: post ∧ (s.n :: pivots post).count y < s.c.count y := by
  induction st with
  | nil => simp [batchRest]
  | cons s st ih =>
    rw [batchRest, List.mem_append, ih, ← count_pos_iff, count_diff]
    constructor
    · rintro (hpos | ⟨pre, s', post, hst, hlt⟩)
      · exact ⟨[], s, st, rfl, by omega⟩
      · exact ⟨s :: pre, s', post, by rw [hst]; rfl, hlt⟩
    rintro ⟨pre, s', post, hst, hlt⟩
    cases pre with
    | nil =>
      cases hst
      left
      omega
    | cons s'' pre =>
      cases hst
      exact .inr ⟨pre, s', post, rfl, hlt⟩

lemma mem_batch {c0 : List Term} : y ∈ batch c0 st ↔ Stays c0 st y := by
  rw [batch, List.mem_append, mem_batchRest, ← count_pos_iff, count_diff, Stays]
  refine or_congr_left ?_
  omega

lemma factorLoop_eq_singleton_iff : factorLoop [] xs = [x] ↔ ∀ y, y ∈ xs ↔ y = x := by
  constructor
  · intro h y
    have hy : y ∈ factorLoop [] xs ↔ y ∈ xs := by
      rw [mem_factorLoop]
      simp
    rw [← hy, h, List.mem_singleton]
  intro h
  refine List.perm_singleton.1 ?_
  refine (List.perm_ext_iff_of_nodup (nodup_factorLoop [] xs) (List.nodup_singleton x)).2 ?_
  intro y
  rw [mem_factorLoop, h y]
  simp

lemma chainMTest_iff (xs : List Term) (Cr : Term) :
    chainMTest (mkOr (factorLoop [] xs)) Cr = some (.bool true) ↔
      (∀ y, y ∈ xs ↔ y = Cr) ∨ ∃ ys, orList Cr = some ys ∧ ys.Nodup ∧ ∀ y ∈ ys, y ∈ xs := by
  have hincl : ∀ ys, orList Cr = some ys →
      (eoListMinclude (.sym .or) (.bool false) Cr (mkOr (factorLoop [] xs)) = some (.bool true) ↔
        ys.Nodup ∧ ∀ y ∈ ys, y ∈ xs) := by
    intro ys hys
    rw [eoListMinclude_eq_true_iff hys (orList_mkOr _)]
    constructor
    · intro hcount
      refine ⟨List.nodup_iff_count_le_one.2 fun y => ?_, fun y hy => ?_⟩
      · exact (hcount y).trans (List.nodup_iff_count_le_one.1 (nodup_factorLoop [] xs) y)
      · have hpos := (count_pos_iff.2 hy).trans_le (hcount y)
        exact (mem_factorLoop.1 (count_pos_iff.1 hpos)).1
    rintro ⟨hnd, hsub⟩ y
    by_cases hy : y ∈ ys
    · have hone := List.nodup_iff_count_le_one.1 hnd y
      have hmem : y ∈ factorLoop [] xs := mem_factorLoop.2 ⟨hsub y hy, by simp⟩
      have hpos := count_pos_iff.2 hmem
      omega
    · rw [List.count_eq_zero_of_not_mem hy]
      exact Nat.zero_le _
  unfold chainMTest
  rw [mkOrNode_eq, ← factorLoop_eq_singleton_iff]
  split
  · rename_i heq
    refine iff_of_true rfl ?_
    -- a node of no or of several literals is the or-list of these
    have hlist : ∀ ys, Cr = mkOr ys → factorLoop [] xs = ys →
        ∃ ys, orList Cr = some ys ∧ ys.Nodup ∧ ∀ y ∈ ys, y ∈ xs := by
      rintro ys rfl rfl
      exact ⟨_, orList_mkOr _, nodup_factorLoop [] xs, fun y hy => (mem_factorLoop.1 hy).1⟩
    generalize factorLoop [] xs = zs at heq hlist
    match zs with
    | [] => exact .inr (hlist [] heq.symm rfl)
    | [z] => exact .inl (congrArg (fun t => [t]) heq)
    | z :: w :: zs => exact .inr (hlist _ heq.symm rfl)
  rename_i hne
  constructor
  · intro hacc
    obtain ⟨ys, zs, hys, _, _⟩ := eoListMinclude_spec hacc
    exact .inr ⟨ys, hys, (hincl ys hys).1 hacc⟩
  rintro (hone | ⟨ys, hys, hcond⟩)
  · rw [hone] at hne
    contradiction
  · exact (hincl ys hys).2 hcond

/-- Whether the signature accepts a chain of the macro rule. -/
lemma chainMResolution_iff (C Cr : Term) (Cs : List Term) (pols : List Bool) (lits : List Term) :
    chainMResolution (C :: Cs) Cr (mkList (pols.map .bool)) (mkList lits) = some Cr ↔
      ∃ c0 st, pivotChain C Cs pols lits = some (c0, st) ∧ ((∀ y, Stays c0 st y ↔ y = Cr) ∨
          ∃ ys, orList Cr = some ys ∧ ys.Nodup ∧ ∀ y ∈ ys, Stays c0 st y) := by
  have htest : ∀ q : List Term × List (PivotStep Term),
      chainMTest (mkOr (factorLoop [] (batch q.1 q.2))) Cr = some (.bool true) ↔
        (∀ y, Stays q.1 q.2 y ↔ y = Cr) ∨
          ∃ ys, orList Cr = some ys ∧ ys.Nodup ∧ ∀ y ∈ ys, Stays q.1 q.2 y := by
    intro q
    rw [chainMTest_iff]
    simp only [mem_batch]
  have hcpc : (chainMResolvent (C :: Cs) (mkList (pols.map .bool)) (mkList lits)).bind
      (chainMTest · Cr) = (pivotChain C Cs pols lits).bind
        fun q => chainMTest (mkOr (factorLoop [] (batch q.1 q.2))) Cr := by
    rw [chainMResolvent, chainMResolve_eq]
    cases pivotChain C Cs pols lits with
    | none => rfl
    | some q =>
      rw [map_some, bind_some, eoListSetof_mkOr]
      rfl
  unfold chainMResolution
  rw [hcpc]
  cases pivotChain C Cs pols lits with
  | none => simp
  | some q =>
    rw [bind_some]
    constructor
    · intro hacc
      split at hacc
      · rename_i hq
        exact ⟨q.1, q.2, rfl, (htest q).1 hq⟩
      · cases hacc
    · rintro ⟨c0, st, heq, hcond⟩
      cases heq
      rw [if_pos ((htest (c0, st)).2 hcond)]

lemma checkChainMResolution_eq {C Cr : Term}
    (h : checkChainMResolution C Cs Cr pols lits = some D) : D = Cr := by
  obtain ⟨xs, _, h⟩ := bind_inv h
  split at h
  · exact (some.inj h).symm
  · cases h

/-! ## All rules -/

/-- When the signature accepts a step that cvc5 accepts.  The conditions are on the premises and
the arguments of the step: which premises are `false`, and how often literals occur in the
premises, among the pivots and in the conclusion. -/
def BoolStep.Agrees : BoolStep → Prop
  | resolution C1 C2 pol L =>
    (C1 = .bool false → (elims pol L).1 = .bool false ∨ C2 = (elims pol L).2) ∧
    (C2 = .bool false → (elims pol L).2 = .bool false ∨ C1 = (elims pol L).1)
  | chainResolution C Cs pols lits => ∃ c0 st, pivotChain C Cs pols lits = some (c0, st) ∧
      (removed c0 st = 2 * st.length ∨ allLits c0 st = {Term.bool false} + allPivots st)
  | chainMResolution C Cs Cr pols lits => ∃ c0 st, pivotChain C Cs pols lits = some (c0, st) ∧
      ((∀ y, Stays c0 st y ↔ y = Cr) ∨
        ∃ ys, orList Cr = some ys ∧ ys.Nodup ∧ ∀ y ∈ ys, Stays c0 st y)
  | factoring _ => True
  | reordering C1 C2 => ∃ xs ys, orList C1 = some xs ∧ orList C2 = some ys ∧
      ∀ x, xs.count x ≤ ys.count x

/-- A step that cvc5 accepts is accepted by the signature, with the same conclusion, exactly if
its repeated literals and its premises `false` allow it. -/
theorem boolStep_agrees_iff (s : BoolStep) (D : Term) (hs : ∀ t ∈ s.formulas, IsNode t)
    (h : s.checkInternal = some D) : s.printed = some D ↔ s.Agrees := by
  cases s with
  | resolution C1 C2 pol L =>
    cases h
    exact resolution_agrees_iff (hs C1 (by simp [BoolStep.formulas]))
      (hs C2 (by simp [BoolStep.formulas])) (hs L (by simp [BoolStep.formulas])) pol
  | chainResolution C Cs pols lits => exact chainResolution_agrees_iff h
  | chainMResolution C Cs Cr pols lits =>
    obtain rfl := checkChainMResolution_eq h
    exact chainMResolution_iff C D Cs pols lits
  | factoring C => exact iff_of_true (factoring_agrees h) trivial
  | reordering C1 C2 => exact reordering_agrees_iff h

lemma isNode_const (n : Nat) : IsNode (.const n) := by
  rintro ⟨a, b, h⟩
  cases h

lemma isNode_mkOr (h : 2 ≤ xs.length) : IsNode (mkOr xs) := by
  rintro -
  have hxs : orList (mkOr xs) = some xs := orList_mkOr xs
  rw [orKids, hxs, Option.filter_some, if_pos (by simpa using h)]
  rfl

/-- Resolution on an or-formula that is a unit premise. -/
theorem boolStep_agrees_iff_unit : (BoolStep.resolution (mkOr [.const 0, .const 1])
        (mkOr [uop .not (mkOr [.const 0, .const 1]), .const 2]) true
        (mkOr [.const 0, .const 1])).printed = some (.const 2) ↔
      (BoolStep.resolution (mkOr [.const 0, .const 1])
        (mkOr [uop .not (mkOr [.const 0, .const 1]), .const 2]) true
        (mkOr [.const 0, .const 1])).Agrees := by
  refine boolStep_agrees_iff _ _ ?_ (by decide)
  intro t ht
  simp only [BoolStep.formulas, mem_cons, List.not_mem_nil, or_false] at ht
  rcases ht with rfl | rfl | rfl
  · exact isNode_mkOr (by decide)
  · exact isNode_mkOr (by decide)
  · exact isNode_mkOr (by decide)

/-- cvc5 reorders `(or a a b)` to `(or a b)`, and it keeps the second `b` when the pivot `b`, which
the first two premises contain, is taken out once. -/
theorem boolStep_disagrees :
    (∃ s D, (∀ t ∈ s.formulas, IsNode t) ∧ s.checkInternal = some D ∧ s.printed = none ∧
      s = BoolStep.reordering (mkOr [.const 0, .const 0, .const 1]) (mkOr [.const 0, .const 1])) ∧
    ∃ s D E, (∀ t ∈ s.formulas, IsNode t) ∧ s.checkInternal = some D ∧ s.printed = some E ∧
      D ≠ E ∧ s = BoolStep.chainResolution (mkOr [.const 0, .const 1])
        [mkOr [uop .not (.const 0), .const 1, .const 2], uop .not (.const 1)] [true, true]
        [.const 0, .const 1] := by
  refine ⟨⟨_, _, ?_, rfl, rfl, rfl⟩, ⟨_, mkOr [.const 1, .const 2], .const 2, ?_, rfl, rfl, ?_, rfl⟩⟩
  · intro t ht
    simp only [BoolStep.formulas, mem_cons, List.not_mem_nil, or_false] at ht
    rcases ht with rfl | rfl
    · exact isNode_mkOr (by decide)
    · exact isNode_mkOr (by decide)
  · intro t ht
    simp only [BoolStep.formulas, mem_cons, List.not_mem_nil, or_false, List.cons_append,
      List.nil_append] at ht
    rcases ht with rfl | rfl | rfl | rfl | rfl
    · exact isNode_mkOr (by decide)
    · exact isNode_mkOr (by decide)
    · exact isNode_not _
    · exact isNode_const 0
    · exact isNode_const 1
  · decide

end EthosCpc.Cvc5
