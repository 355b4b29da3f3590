import Mathlib.Data.List.Basic

/-!
# Doubly linked lists

Nodes are numbers, and two partial functions give the next and the previous node.
`Chain` says that a list of nodes is linked, from a given predecessor on.  A
node is put in front, or taken out anywhere, by overwriting the links of its
neighbours; nothing is traversed.
-/

namespace EthosCpc.Library.LinkedList

open List (mem_cons_of_mem mem_cons_self nodup_cons)

variable {next prev next' prev' : Nat → Option Nat} {p : Option Nat} {x : Nat} {xs ys : List Nat}

/-- The nodes are linked, and `p` is what the first one has as its predecessor. -/
def Chain (next prev : Nat → Option Nat) : Option Nat → List Nat → Prop
  | _, [] => True
  | p, x :: xs => prev x = p ∧ next x = xs.head? ∧ Chain next prev (some x) xs

/-- Only the links of the nodes themselves matter. -/
lemma Chain.congr (h : Chain next prev p xs)
    (hsame : ∀ x ∈ xs, next' x = next x ∧ prev' x = prev x) : Chain next' prev' p xs := by
  induction xs generalizing p with
  | nil => trivial
  | cons x xs ih =>
    obtain ⟨hp, hn, hrest⟩ := h
    obtain ⟨hnext, hprev⟩ := hsame x (.head _)
    exact ⟨hprev.trans hp, hnext.trans hn, ih hrest fun y hy => hsame y (mem_cons_of_mem x hy)⟩

/-- An update at the node `x?`, if there is one. -/
def updateAt (f : Nat → Option Nat) (x? v : Option Nat) : Nat → Option Nat :=
  match x? with
  | some x => Function.update f x v
  | none => f

variable {f : Nat → Option Nat}

lemma updateAt_of_ne {x? v : Option Nat} (h : x? ≠ some x) : updateAt f x? v x = f x := by
  cases x? with
  | none => rfl
  | some y =>
    change Function.update f y v x = f x
    rw [Function.update_of_ne]
    rintro rfl
    exact h rfl

lemma updateAt_self {v : Option Nat} : updateAt f (some x) v x = v := by
  change Function.update f x v x = v
  rw [Function.update_self]

lemma ne_head_of_not_mem (h : x ∉ xs) : xs.head? ≠ some x :=
  fun heq => h (List.mem_of_mem_head? heq)

/-- A node without a predecessor is put in front. -/
lemma Chain.push (h : Chain next prev none xs) (hx : x ∉ xs) (hnodup : xs.Nodup)
    (hprev : prev x = none) :
    Chain (Function.update next x xs.head?) (updateAt prev xs.head? (some x)) none (x :: xs) := by
  refine ⟨(updateAt_of_ne (ne_head_of_not_mem hx)).trans hprev, Function.update_self x _ _, ?_⟩
  have hnext : ∀ y ∈ xs, Function.update next x xs.head? y = next y := by
    intro y hy
    rw [Function.update_of_ne]
    rintro rfl
    exact hx hy
  cases xs with
  | nil => trivial
  | cons y ys =>
    obtain ⟨_, hn, hrest⟩ := h
    refine ⟨updateAt_self, (hnext y (.head _)).trans hn, hrest.congr fun z hz => ?_⟩
    refine ⟨hnext z (mem_cons_of_mem y hz), updateAt_of_ne fun heq => ?_⟩
    cases heq
    exact (nodup_cons.1 hnodup).1 hz

/-- The predecessor of a node in the middle. -/
lemma Chain.prev_eq (h : Chain next prev p (xs ++ x :: ys)) : prev x = xs.getLast?.or p := by
  induction xs generalizing p with
  | nil => exact h.1
  | cons y xs ih =>
    rw [ih h.2.2]
    cases xs with
    | nil => rfl
    | cons z zs => rw [List.getLast?_cons_cons]; cases h : (z :: zs).getLast? <;> simp_all

lemma Chain.next_eq (h : Chain next prev p (xs ++ x :: ys)) : next x = ys.head? := by
  induction xs generalizing p with
  | nil => exact h.2.1
  | cons y xs ih => exact ih h.2.2

lemma Chain.erase (h : Chain next prev p (xs ++ x :: ys)) (hnodup : (xs ++ x :: ys).Nodup)
    (hp : ∀ q, p = some q → q ∉ xs ++ x :: ys) :
    Chain (updateAt next (prev x) (next x)) (updateAt prev (next x) (prev x)) p (xs ++ ys) := by
  induction xs generalizing p with
  | nil =>
    obtain ⟨hprev, hnext, hrest⟩ := h
    rw [hprev, hnext]
    have hys := (nodup_cons.1 hnodup).2
    cases ys with
    | nil => trivial
    | cons y ys =>
      obtain ⟨_, hn, hrest⟩ := hrest
      have hpn : ∀ z ∈ y :: ys, p ≠ some z := by
        intro z hz heq
        exact hp z heq (mem_cons_of_mem x hz)
      refine ⟨updateAt_self, (updateAt_of_ne (hpn y (.head _))).trans hn,
        hrest.congr fun z hz => ?_⟩
      refine ⟨updateAt_of_ne (hpn z (mem_cons_of_mem y hz)), updateAt_of_ne fun heq => ?_⟩
      cases heq
      exact (nodup_cons.1 hys).1 hz
  | cons z zs ih =>
    obtain ⟨hprev, hnext, hrest⟩ := h
    obtain ⟨hz, hnodup'⟩ := nodup_cons.1 hnodup
    have hmid := hrest.prev_eq
    have hend := hrest.next_eq
    refine ⟨(updateAt_of_ne ?_).trans hprev, ?_, ih hrest hnodup' fun q hq => by
      cases hq
      exact hz⟩
    · rw [hend]
      exact ne_head_of_not_mem fun hmem =>
        hz (List.mem_append_right zs (mem_cons_of_mem x hmem))
    cases zs with
    | nil =>
      rw [hmid]
      exact updateAt_self.trans hend
    | cons w ws =>
      refine (updateAt_of_ne ?_).trans hnext
      rw [hmid]
      intro heq
      apply hz
      have hlast : (w :: ws).getLast? = some z := by
        cases hl : (w :: ws).getLast? with
        | none => simp at hl
        | some l =>
          rw [hl] at heq
          exact heq
      exact List.mem_append_left _ (List.mem_of_getLast? hlast)

/-- The first node after one has been taken out. -/
lemma Chain.head_erase (h : Chain next prev p (xs ++ x :: ys)) (hnodup : (xs ++ x :: ys).Nodup) :
    (if (xs ++ x :: ys).head? = some x then next x else (xs ++ x :: ys).head?) =
      (xs ++ ys).head? := by
  cases xs with
  | nil => exact (if_pos rfl).trans h.next_eq
  | cons z zs =>
    refine if_neg fun heq => ?_
    cases heq
    exact (nodup_cons.1 hnodup).1 (List.mem_append_right zs (.head _))

end EthosCpc.Library.LinkedList
