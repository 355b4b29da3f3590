import Mathlib

/-!
# Filtering loops that share the untouched tail

A loop that drops some elements of a linked list can avoid rebuilding the
part of the list behind the last element it dropped.  Such a loop keeps
the elements it has retained so far and remembers two numbers: the index
just behind the last dropped element, and how many elements had been
retained when it was dropped.  When it ends, the answer is the retained
prefix of that length followed by the original list from that index on.

`filterLoop` is that loop over an arbitrary element type, with an arbitrary
state threaded through the test, and `filterLoop_spec` says its answer is
the list that a plain filtering pass (`filterWith`) would have built.
-/

namespace EthosCpc.Library

section FilterLoop

variable {α σ : Type*} (step : σ → α → Bool × σ)

/-- The plain pass: keep exactly the elements on which the test answers
`true`, threading the state. -/
def filterWith : σ → List α → List α
  | _, [] => []
  | s, x :: xs =>
    if (step s x).1 then x :: filterWith (step s x).2 xs
    else filterWith (step s x).2 xs

/-- The loop with the last change remembered.  `i` is the index of the next
element, `res` the elements retained so far, `ci` and `cs` the index behind
the last dropped element and the number retained at that point. -/
def filterLoop : List α → Nat → σ → List α → Nat → Nat → List α × Nat × Nat
  | [], _, _, res, ci, cs => (res, ci, cs)
  | x :: xs, i, s, res, ci, cs =>
    if (step s x).1 then filterLoop xs (i + 1) (step s x).2 (res ++ [x]) ci cs
    else filterLoop xs (i + 1) (step s x).2 res (i + 1) res.length

/-- The list the loop stands for: the retained prefix up to the last change,
then the original list from there on. -/
def spliceAt (full : List α) (r : List α × Nat × Nat) : List α :=
  r.1.take r.2.2 ++ full.drop r.2.1

/-- Loop invariant: with `pre` processed, the retained elements are the
prefix at the last change followed by everything processed since. -/
lemma filterLoop_invariant (full : List α) :
    ∀ (xs pre : List α) (s : σ) (res : List α) (ci cs : Nat),
      full = pre ++ xs → ci ≤ pre.length → cs ≤ res.length →
      res = res.take cs ++ pre.drop ci →
      spliceAt full (filterLoop step xs pre.length s res ci cs) = res ++ filterWith step s xs := by
  intro xs
  induction xs with
  | nil =>
    intro pre s res ci cs hfull _ _ hres
    rw [List.append_nil] at hfull
    subst hfull
    simp only [filterLoop, spliceAt, filterWith, List.append_nil]
    exact hres.symm
  | cons x xs ih =>
    intro pre s res ci cs hfull hci hcs hres
    have hfull' : full = (pre ++ [x]) ++ xs := by simpa using hfull
    have hlen : (pre ++ [x]).length = pre.length + 1 := by simp
    by_cases hkeep : (step s x).1
    · have hres' : res ++ [x] = (res ++ [x]).take cs ++ (pre ++ [x]).drop ci := by
        rw [List.drop_append_of_le_length hci, List.take_append_of_le_length hcs,
          ← List.append_assoc, ← hres]
      have h := ih (pre ++ [x]) (step s x).2 (res ++ [x]) ci cs hfull'
        (by rw [hlen]; omega) (by simp; omega) hres'
      rw [hlen] at h
      simpa [filterLoop, filterWith, hkeep] using h
    have h := ih (pre ++ [x]) (step s x).2 res (pre.length + 1) res.length hfull'
      (by rw [hlen]) le_rfl (by simp)
    rw [hlen] at h
    simpa [filterLoop, filterWith, hkeep] using h

lemma filterLoop_spec (xs : List α) (s : σ) :
    spliceAt xs (filterLoop step xs 0 s [] 0 0) = filterWith step s xs := by
  have h := filterLoop_invariant step xs xs [] s [] 0 0 rfl le_rfl le_rfl rfl
  simpa using h

lemma filterWith_subset (s : σ) (xs : List α) : filterWith step s xs ⊆ xs := by
  induction xs generalizing s with
  | nil => simp [filterWith]
  | cons x xs ih =>
    intro y hy
    simp only [filterWith] at hy
    split at hy
    · rcases List.mem_cons.1 hy with rfl | hy
      · exact .head _
      · exact .tail _ (ih _ hy)
    · exact .tail _ (ih _ hy)

/-- What a pass drops satisfies any property that the test guarantees for
dropped elements, in every state it can reach. -/
lemma mem_filterWith_or {P : α → Prop} {I : σ → Prop}
    (hstep : ∀ s x, I s → I (step s x).2) (hdrop : ∀ s x, I s → (step s x).1 = false → P x) :
    ∀ (xs : List α) (s : σ), I s → ∀ x ∈ xs, x ∈ filterWith step s xs ∨ P x := by
  intro xs
  induction xs with
  | nil => intro s _ x hx; simp at hx
  | cons y xs ih =>
    intro s hs x hx
    rcases List.mem_cons.1 hx with rfl | hx
    · cases hkeep : (step s x).1 with
      | true => left; simp [filterWith, hkeep]
      | false => exact .inr (hdrop s x hs hkeep)
    rcases ih (step s y).2 (hstep s y hs) x hx with h | h
    · left
      simp only [filterWith]
      split
      · exact .tail _ h
      · exact h
    · exact .inr h

end FilterLoop

end EthosCpc.Library
