import Mathlib.Data.Finset.Card
import EthosCpc.Library.Inversion

/-!
# Combining the readings of a list

A list of syntactic elements is read through a partial function `f`, and the
readings are combined by an operation with an identity.  Appending lists
combines their readings.  A commutative operation does not see the order,
and one that is idempotent as well does not see repetitions.
-/

namespace EthosCpc.Library

variable {α M : Type} (o : M → M → M) (e : M) (f : α → Option M)

/-- The combined reading of a list, undefined if one element has no reading. -/
def foldRead : List α → Option M
  | [] => some e
  | x :: xs => (f x).bind fun a => (foldRead xs).map (o a)

@[simp] lemma foldRead_nil : foldRead o e f [] = some e := rfl

lemma foldRead_cons (x : α) (xs : List α) :
    foldRead o e f (x :: xs) = (f x).bind fun a => (foldRead o e f xs).map (o a) := rfl

variable {o e f}

lemma foldRead_cons_eq_some {x : α} {xs : List α} {m : M} : foldRead o e f (x :: xs) = some m ↔
      ∃ a b, f x = some a ∧ foldRead o e f xs = some b ∧ m = o a b := by
  constructor
  · intro h
    obtain ⟨a, ha, h⟩ := bind_inv h
    obtain ⟨b, hb, h⟩ := map_inv h
    exact ⟨a, b, ha, hb, h.symm⟩
  · rintro ⟨a, b, ha, hb, rfl⟩
    rw [foldRead_cons, ha, Option.bind_some, hb, Option.map_some]

section Monoid

variable [Std.LawfulIdentity o e]

lemma foldRead_singleton (x : α) : foldRead o e f [x] = f x := by
  rw [foldRead_cons, foldRead_nil]
  cases f x with
  | none => rfl
  | some a => simp [Std.LawfulRightIdentity.right_id]

variable [Std.Associative o]

lemma foldRead_append {xs ys : List α} {m n : M} (hx : foldRead o e f xs = some m)
    (hy : foldRead o e f ys = some n) : foldRead o e f (xs ++ ys) = some (o m n) := by
  induction xs generalizing m with
  | nil =>
    obtain rfl : e = m := Option.some.inj hx
    have hid : o e n = n := Std.LawfulLeftIdentity.left_id n
    rw [List.nil_append, hy, hid]
  | cons x xs ih =>
    obtain ⟨a, b, ha, hb, rfl⟩ := foldRead_cons_eq_some.1 hx
    rw [List.cons_append]
    exact foldRead_cons_eq_some.2 ⟨a, o b n, ha, ih hb, Std.Associative.assoc a b n⟩

end Monoid

section Commutative

variable [Std.Associative o] [Std.Commutative o]

variable {xs ys : List α}

lemma foldRead_perm (h : xs.Perm ys) : foldRead o e f xs = foldRead o e f ys := by
  induction h with
  | nil => rfl
  | cons x _ ih => rw [foldRead_cons, foldRead_cons, ih]
  | swap x y xs =>
    have hswap : ∀ a b c, o b (o a c) = o a (o b c) := by
      intro a b c
      have hassoc : ∀ a b c : M, o (o a b) c = o a (o b c) := Std.Associative.assoc
      have hcomm : o b a = o a b := Std.Commutative.comm b a
      rw [← hassoc, hcomm, hassoc]
    simp only [foldRead_cons]
    cases f x <;> cases f y <;> cases foldRead o e f xs <;> simp [hswap]
  | trans _ _ ih ih' => exact ih.trans ih'

variable [Std.IdempotentOp o]

/-- An element that is there already changes nothing. -/
lemma foldRead_cons_of_mem {x : α} {xs : List α} (h : x ∈ xs) :
    foldRead o e f (x :: xs) = foldRead o e f xs := by
  obtain ⟨ys, zs, rfl⟩ := List.append_of_mem h
  have hperm : (ys ++ x :: zs).Perm (x :: (ys ++ zs)) := List.perm_middle
  rw [foldRead_perm (o := o) (hperm.cons x), foldRead_perm (o := o) hperm, foldRead_cons,
    foldRead_cons]
  cases f x with
  | none => rfl
  | some a =>
    cases foldRead o e f (ys ++ zs) with
    | none => rfl
    | some b =>
      have hassoc : o (o a a) b = o a (o a b) := Std.Associative.assoc a a b
      have hidem : o a a = a := Std.IdempotentOp.idempotent a
      simp only [Option.bind_some, Option.map_some]
      rw [← hassoc, hidem]

lemma foldRead_append_of_subset (h : xs ⊆ ys) : foldRead o e f (xs ++ ys) = foldRead o e f ys := by
  induction xs with
  | nil => rfl
  | cons x xs ih =>
    have hsub : xs ⊆ ys := fun y hy => h (List.mem_cons_of_mem x hy)
    have hx : x ∈ xs ++ ys := List.mem_append_right _ (h (.head _))
    rw [List.cons_append, foldRead_cons_of_mem hx, ih hsub]

lemma foldRead_of_subset (h : xs ⊆ ys) (h' : ys ⊆ xs) : foldRead o e f xs = foldRead o e f ys := by
  rw [← foldRead_append_of_subset (o := o) h, ← foldRead_append_of_subset (o := o) h']
  exact foldRead_perm List.perm_append_comm

end Commutative

/-! ## Multisets through counts -/

/-- Two lists with equally many distinct elements, where all elements of the
first occur equally often in the second, are permutations of each other. -/
lemma perm_of_count_eq [DecidableEq α] {xs ys : List α}
    (hlen : xs.dedup.length = ys.dedup.length) (hcount : ∀ x ∈ xs, xs.count x = ys.count x) :
    xs.Perm ys := by
  have hsub : xs.toFinset ⊆ ys.toFinset := by
    intro x hx
    rw [List.mem_toFinset] at hx ⊢
    rw [← List.count_pos_iff, ← hcount x hx]
    exact List.count_pos_iff.2 hx
  have heq : xs.toFinset = ys.toFinset := by
    refine Finset.eq_of_subset_of_card_le hsub ?_
    rw [List.card_toFinset, List.card_toFinset, hlen]
  rw [List.perm_iff_count]
  intro x
  by_cases hx : x ∈ xs
  · exact hcount x hx
  · have hy : x ∉ ys := by rwa [← List.mem_toFinset, ← heq, List.mem_toFinset]
    rw [List.count_eq_zero_of_not_mem hx, List.count_eq_zero_of_not_mem hy]

end EthosCpc.Library
