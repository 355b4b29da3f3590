import EthosCpc.Library.FilterLoop

/-!
# Taking pivots out of clauses, one at a time or in batches

A chain of steps `(p, n, c)` takes one `p` out of the clause obtained so far
and one `n` out of `c`, and appends what is left of `c`.  A batch does the
same to each clause on its own: what it takes out of a clause are the `n` of
this clause and the `p` of all later steps.

A batch takes out at least as much as the chain, so that the results are the
same list exactly if they have the same length (`batch_eq_iff`), and how long
they are depends on how often the pivots occur in the clauses.
-/

namespace EthosCpc.Library

open Multiset (card_add coe_card singleton_add)
open List (diff_cons map_cons sum_cons)

variable {α : Type*} [DecidableEq α]

/-- A step: the pivot of the clause so far, the pivot of the next clause, and this clause. -/
structure PivotStep (α : Type*) where
  p : α
  n : α
  c : List α

/-- The pivots that later clauses take out of an earlier one. -/
def pivots (st : List (PivotStep α)) : List α := st.map PivotStep.p

/-- One pivot after the other; a pivot that does not occur is an error. -/
def chain : List α → List (PivotStep α) → Option (List α)
  | acc, [] => some acc
  | acc, s :: st =>
    if s.p ∈ acc ∧ s.n ∈ s.c then chain (acc.erase s.p ++ s.c.erase s.n) st else none

def batchRest : List (PivotStep α) → List α
  | [] => []
  | s :: st => s.c.diff (s.n :: pivots st) ++ batchRest st

/-- All pivots of a clause at once. -/
def batch (acc : List α) (st : List (PivotStep α)) : List α :=
  acc.diff (pivots st) ++ batchRest st

/-! ## The batch takes out more -/

lemma diff_append_sublist (a b P : List α) : (a.diff P ++ b.diff P).Sublist ((a ++ b).diff P) := by
  induction P generalizing a b with
  | nil => exact List.Sublist.refl _
  | cons x P ih =>
    rw [diff_cons, diff_cons, diff_cons]
    by_cases hx : x ∈ a
    · have hb : ((b.erase x).diff P).Sublist (b.diff P) :=
        List.Sublist.diff_right List.erase_sublist
      rw [List.erase_append_left _ hx]
      exact ((List.Sublist.refl _).append hb).trans (ih _ _)
    · rw [List.erase_append_right _ hx, List.erase_of_not_mem hx]
      exact ih _ _

variable {st : List (PivotStep α)} {acc r : List α}

lemma batch_sublist_chain (h : chain acc st = some r) : (batch acc st).Sublist r := by
  induction st generalizing acc with
  | nil =>
    cases h
    rw [batch, batchRest, List.append_nil]
    exact List.Sublist.refl _
  | cons s st ih =>
    rw [chain] at h
    split at h
    swap
    · cases h
    refine List.Sublist.trans ?_ (ih h)
    show (acc.diff (s.p :: pivots st) ++ (s.c.diff (s.n :: pivots st) ++ batchRest st)).Sublist
      ((acc.erase s.p ++ s.c.erase s.n).diff (pivots st) ++ batchRest st)
    rw [diff_cons, diff_cons, ← List.append_assoc]
    exact (diff_append_sublist _ _ _).append (List.Sublist.refl _)

lemma batch_eq_iff (h : chain acc st = some r) :
    batch acc st = r ↔ (batch acc st).length = r.length :=
  ⟨congrArg List.length, (batch_sublist_chain h).eq_of_length⟩

/-! ## How much is left -/

/-- The literals of all clauses. -/
def allLits (acc : List α) (st : List (PivotStep α)) : Multiset α :=
  acc + (st.map fun s => (s.c : Multiset α)).sum

def allPivots (st : List (PivotStep α)) : Multiset α :=
  (st.map fun s => ({s.p, s.n} : Multiset α)).sum

lemma coe_erase_add {l : List α} {x : α} (hx : x ∈ l) :
    ((l.erase x : List α) : Multiset α) + {x} = l := by
  rw [← Multiset.coe_erase, add_comm, singleton_add]
  exact Multiset.cons_erase (Multiset.mem_coe.2 hx)

lemma chain_multiset (h : chain acc st = some r) :
    (r : Multiset α) + allPivots st = allLits acc st := by
  induction st generalizing acc with
  | nil =>
    cases h
    simp [allPivots, allLits]
  | cons s st ih =>
    rw [chain] at h
    split at h
    swap
    · cases h
    rename_i hmem
    have hrest := ih h
    simp only [allPivots, allLits, map_cons, sum_cons] at hrest ⊢
    rw [← Multiset.coe_add] at hrest
    calc (r : Multiset α) + ({s.p, s.n} + (st.map fun s => ({s.p, s.n} : Multiset α)).sum)
        = (r + (st.map fun s => ({s.p, s.n} : Multiset α)).sum) + {s.p} + {s.n} := by
          rw [Multiset.insert_eq_cons, ← singleton_add]
          abel
      _ = (acc.erase s.p + {s.p}) + (s.c.erase s.n + {s.n}) +
            (st.map fun s => (s.c : Multiset α)).sum := by
          rw [hrest]
          abel
      _ = acc + (s.c + (st.map fun s => (s.c : Multiset α)).sum) := by
          rw [coe_erase_add hmem.1, coe_erase_add hmem.2, add_assoc]

/-- The number of literals that the batch takes out of the clauses of the steps. -/
def removedRest : List (PivotStep α) → Nat
  | [] => 0
  | s :: st => ((s.c : Multiset α) ∩ (s.n :: pivots st : List α)).card + removedRest st

/-- The number of literals that the batch takes out: for each clause, how many it has in common
with its pivots. -/
def removed (acc : List α) (st : List (PivotStep α)) : Nat :=
  ((acc : Multiset α) ∩ (pivots st : List α)).card + removedRest st

lemma length_diff_add (l P : List α) :
    (l.diff P).length + ((l : Multiset α) ∩ (P : Multiset α)).card = l.length := by
  rw [← coe_card, ← Multiset.coe_sub, ← card_add, Multiset.sub_add_inter, coe_card]

lemma length_batchRest_add (st : List (PivotStep α)) :
    (batchRest st).length + removedRest st = (st.map fun s => s.c.length).sum := by
  induction st with
  | nil => rfl
  | cons s st ih =>
    rw [batchRest, removedRest, List.length_append, map_cons, sum_cons, ← ih,
      ← length_diff_add s.c (s.n :: pivots st)]
    omega

omit [DecidableEq α] in
lemma card_allLits (acc : List α) (st : List (PivotStep α)) :
    (allLits acc st).card = acc.length + (st.map fun s => s.c.length).sum := by
  have hsum : ((st.map fun s => (s.c : Multiset α)).sum).card =
      (st.map fun s => s.c.length).sum := by
    induction st with
    | nil => rfl
    | cons s st ih => rw [map_cons, sum_cons, card_add, ih, coe_card, map_cons, sum_cons]
  rw [allLits, card_add, coe_card, hsum]

omit [DecidableEq α] in
lemma card_allPivots (st : List (PivotStep α)) : (allPivots st).card = 2 * st.length := by
  induction st with
  | nil => rfl
  | cons s st ih =>
    have htwo : Multiset.card ({s.p, s.n} : Multiset α) = 2 := Multiset.card_pair _ _
    rw [allPivots, map_cons, sum_cons, card_add, htwo, List.length_cons,
      show ((st.map fun s => ({s.p, s.n} : Multiset α)).sum).card = 2 * st.length from ih]
    omega

lemma batch_eq_chain_iff
    (h : chain acc st = some r) : batch acc st = r ↔ removed acc st = 2 * st.length := by
  have hcard := congrArg Multiset.card (chain_multiset h)
  rw [card_add, coe_card, card_allPivots, card_allLits] at hcard
  have hacc := length_diff_add acc (pivots st)
  have hrest := length_batchRest_add st
  rw [batch_eq_iff h, batch, List.length_append, removed]
  omega

/-! ## Filtering by a count -/

lemma filterWith_count_eq_diff (xs ys : List α) : filterWith (fun (c : α → Nat) x =>
        (decide (c x = 0), fun y => if y = x then c y - 1 else c y)) (fun y => ys.count y) xs =
      xs.diff ys := by
  induction xs generalizing ys with
  | nil => rw [filterWith, List.nil_diff]
  | cons x xs ih =>
    rw [filterWith, List.cons_diff]
    by_cases hx : x ∈ ys
    · have hcount : (fun y => if y = x then ys.count y - 1 else ys.count y) =
          fun y => (ys.erase x).count y := by
        funext y
        rw [List.count_erase]
        by_cases hyx : y = x
        · simp [hyx]
        · simp [hyx, Ne.symm hyx]
      have hpos : ys.count x ≠ 0 := (List.count_pos_iff.2 hx).ne'
      rw [if_neg (by simpa using hpos), if_pos hx, hcount]
      exact ih _
    have hzero : ys.count x = 0 := List.count_eq_zero_of_not_mem hx
    have hcount : (fun y => if y = x then ys.count y - 1 else ys.count y) =
        fun y => ys.count y := by
      funext y
      by_cases hyx : y = x
      · simp [hyx, hzero]
      · simp [hyx]
    rw [if_pos (by simpa using hzero), if_neg hx, hcount, ih]

end EthosCpc.Library
