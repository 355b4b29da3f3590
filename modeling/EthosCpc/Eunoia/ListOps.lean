import EthosCpc.Eunoia.Term
import EthosCpc.Library.FilterLoop
import EthosCpc.Library.FoldRead

/-!
# The builtin list operators

An operator `op` declared `:right-assoc-nil` turns its applications into
lists: `(op x1 ... xn)` is `app (app op x1) (... nil)`.  The evaluator of
Ethos has builtin operators on such lists (`eo::list_concat`,
`eo::list_diff`, `eo::list_setof` and so on).  This module embeds the ones
the proof rules use, after `evaluateLiteralOpInternal` and the helpers it
calls, for right-associative operators.

All of them first take the list apart with `getNAryChildren`, which fails
when the term does not end in the nil terminator, and put the result
together with `prependNAryChildren`.  A failure is a stuck term, `none`.

The operators that filter a list (`eo::list_setof`, `eo::list_diff`,
`eo::list_erase_all`) rebuild only the part in front of the last element
they dropped.  `rebuild_spec` reduces each of them to the plain pass over
the children.
-/

namespace EthosCpc

open Library
open Option (some.inj)

variable (op nil : Term)

/-! ## Taking lists apart and putting them together -/

/-- The elements of the spine of `op`-applications at the top of a term,
and the term at its end. -/
def naryView : Term → List Term × Term
  | .app (.app f a) b =>
    if f = op then (a :: (naryView b).1, (naryView b).2) else ([], .app (.app f a) b)
  | t => ([], t)

/-- `getNAryChildren`: the elements of an `op`-list that ends in `nil`. -/
def getNAryChildren (e : Term) : Option (List Term) :=
  if (naryView op e).2 = nil then some (naryView op e).1 else none

def isNAryList (e : Term) : Bool := (naryView op e).2 = nil

def getNAryNthTail : Nat → Term → Term
  | 0, e => e
  | n + 1, .app _ b => getNAryNthTail n b
  | _ + 1, e => e

/-- `prependNAryChildren`: put elements in front of a list. -/
def prependNAryChildren (ret : Term) (hargs : List Term) : Term :=
  hargs.foldr (fun h r => .app (.app op h) r) ret

@[simp] lemma prependNAryChildren_nil (ret : Term) : prependNAryChildren op ret [] = ret := rfl

@[simp] lemma prependNAryChildren_cons (ret x : Term) (xs : List Term) :
    prependNAryChildren op ret (x :: xs) = .app (.app op x) (prependNAryChildren op ret xs) := rfl

lemma prependNAryChildren_append (ret : Term) (xs ys : List Term) :
    prependNAryChildren op ret (xs ++ ys) =
      prependNAryChildren op (prependNAryChildren op ret ys) xs := by
  simp [prependNAryChildren]

lemma prepend_naryView (e : Term) :
    prependNAryChildren op (naryView op e).2 (naryView op e).1 = e := by
  induction e using naryView.induct op with
  | case1 a b ih =>
    rw [naryView, if_pos rfl]
    simp only [prependNAryChildren_cons, ih]
  | case2 f a b hf => rw [naryView, if_neg hf]; rfl
  | case3 t ht =>
    rw [naryView]
    · rfl
    · exact ht

variable {op nil}

variable {e a b r x : Term}

lemma eq_of_getNAryChildren {xs : List Term}
    (h : getNAryChildren op nil e = some xs) : e = prependNAryChildren op nil xs := by
  unfold getNAryChildren at h
  split at h
  swap
  · cases h
  rename_i htail
  simp only [Option.some.injEq] at h
  subst h
  rw [← htail, prepend_naryView]

lemma isNAryList_iff : isNAryList op nil e = true ↔ ∃ xs, getNAryChildren op nil e = some xs := by
  unfold isNAryList getNAryChildren
  split <;> simp_all

lemma getNAryNthTail_prepend (xs : List Term) (n : Nat) (h : n ≤ xs.length) :
    getNAryNthTail n (prependNAryChildren op nil xs) = prependNAryChildren op nil (xs.drop n) := by
  induction n generalizing xs with
  | zero => simp [getNAryNthTail]
  | succ n ih =>
    cases xs with
    | nil => simp at h
    | cons x xs =>
      simp only [prependNAryChildren_cons, getNAryNthTail, List.drop_succ_cons]
      exact ih xs (by simpa using h)

/-- Spines of a list put together from elements: the new elements come first. -/
lemma naryView_prepend (ret : Term) (xs : List Term) : naryView op (prependNAryChildren op ret xs) =
      (xs ++ (naryView op ret).1, (naryView op ret).2) := by
  induction xs with
  | nil => simp
  | cons x xs ih => simp [naryView, ih]

/-- When the nil terminator is not itself an `op`-application, a list that
was put together comes apart again. -/
lemma getNAryChildren_prepend (hnil : naryView op nil = ([], nil)) (xs : List Term) :
    getNAryChildren op nil (prependNAryChildren op nil xs) = some xs := by
  simp [getNAryChildren, naryView_prepend, hnil]

variable (op nil)

/-! ## Operators on whole lists -/

def eoCons (x l : Term) : Option Term :=
  if isNAryList op nil l then some (prependNAryChildren op l [x]) else none

def eoListConcat (a b : Term) : Option Term :=
  if isNAryList op nil b then
    (getNAryChildren op nil a).map fun hargs =>
      if b = nil then a else prependNAryChildren op b hargs
  else none

def eoListRev (a : Term) : Option Term :=
  (getNAryChildren op nil a).map fun hargs => prependNAryChildren op nil hargs.reverse

def eoListLen (a : Term) : Option Nat := (getNAryChildren op nil a).map List.length

def eoListSingletonElim (a : Term) : Option Term :=
  (getNAryChildren op nil a).map fun hargs =>
    match hargs with
    | [x] => x
    | _ => a

/-- `eo::list_nth`: the element at a position that is a numeral. -/
def eoListNth (a : Term) (i : Int) : Option Term :=
  if 0 ≤ i then (getNAryChildren op nil a).bind fun hargs => hargs[i.toNat]? else none

/-- `eo::list_find`: the position of an element, `-1` when there is none. -/
def eoListFind (a x : Term) : Option Int :=
  (getNAryChildren op nil a).map fun hargs => if x ∈ hargs then (hargs.idxOf x : Int) else -1

/-- The search loop of `eo::list_erase`: the elements in front of the first
occurrence and the index behind it, `0` when there is none. -/
def eraseLoop (x : Term) : List Term → Nat → List Term → List Term × Nat
  | [], _, result => (result, 0)
  | y :: ys, i, result =>
    if y = x then (result, i + 1) else eraseLoop x ys (i + 1) (result ++ [y])

/-- `eo::list_erase`: remove the first occurrence of an element. -/
def eoListErase (a x : Term) : Option Term :=
  (getNAryChildren op nil a).map fun hargs =>
    let r := eraseLoop x hargs 0 []
    if r.2 = 0 then a else prependNAryChildren op (getNAryNthTail r.2 a) r.1

/-- The end of a filtering loop: the original list when nothing was dropped,
else the retained prefix in front of the tail behind the last change. -/
def rebuild (a : Term) (r : List Term × Nat × Nat) : Term :=
  if r.2.1 = 0 then a
  else prependNAryChildren op (getNAryNthTail r.2.1 a) (r.1.take r.2.2)

/-- The test of `eo::list_setof`: has the element been seen? -/
def setofStep (seen : List Term) (x : Term) : Bool × List Term :=
  (decide (x ∉ seen), x :: seen)

/-- `eo::list_setof`: keep the first occurrence of every element. -/
def eoListSetof (a : Term) : Option Term :=
  (getNAryChildren op nil a).map fun hargs =>
    rebuild op a (filterLoop setofStep hargs 0 [] [] 0 0)

/-- The test of `eo::list_diff`: an element is dropped while its count is
positive, and each drop uses one up. -/
def diffStep (count : Term → Nat) (x : Term) : Bool × (Term → Nat) :=
  (decide (count x = 0), fun y => if y = x then count y - 1 else count y)

/-- `eo::list_diff`: multiset difference. -/
def eoListDiff (a b : Term) : Option Term :=
  (getNAryChildren op nil a).bind fun hargs =>
    (getNAryChildren op nil b).map fun hargs2 =>
      if a = b then nil
      else rebuild op a (filterLoop diffStep hargs 0 (fun x => hargs2.count x) [] 0 0)

/-- `eo::list_minclude`: multiset inclusion of the first list in the second. -/
def eoListMinclude (a b : Term) : Option Term :=
  (getNAryChildren op nil a).bind fun hargs =>
    (getNAryChildren op nil b).map fun hargs2 =>
      if a = b then .bool true
      else .bool (hargs.all fun x => decide (hargs.count x ≤ hargs2.count x))

/-- `eo::list_meq`: multiset equality.  The number of distinct elements is
compared first, so that one direction of the comparison suffices. -/
def eoListMeq (a b : Term) : Option Term :=
  (getNAryChildren op nil a).bind fun hargs =>
    (getNAryChildren op nil b).map fun hargs2 =>
      if a = b then .bool true
      else if hargs.dedup.length ≠ hargs2.dedup.length then .bool false
      else .bool (hargs.all fun x => decide (hargs.count x = hargs2.count x))

variable {op nil}

/-! ## Specifications -/

lemma eoListConcat_spec (h : eoListConcat op nil a b = some r) :
    ∃ xs ys, getNAryChildren op nil a = some xs ∧ getNAryChildren op nil b = some ys ∧
      r = prependNAryChildren op nil (xs ++ ys) := by
  unfold eoListConcat at h
  split at h
  swap
  · cases h
  rename_i hb
  obtain ⟨ys, hys⟩ := isNAryList_iff.1 hb
  obtain ⟨xs, hxs, hr⟩ := map_inv h
  refine ⟨xs, ys, hxs, hys, ?_⟩
  rw [prependNAryChildren_append, ← eq_of_getNAryChildren hys, ← hr]
  split
  · rename_i hnil
    rw [hnil, ← eq_of_getNAryChildren hxs]
  · rfl

lemma eoListNth_spec {i : Int} (h : eoListNth op nil a i = some x) :
    ∃ xs, 0 ≤ i ∧ getNAryChildren op nil a = some xs ∧ xs[i.toNat]? = some x := by
  unfold eoListNth at h
  split at h
  · rename_i hi
    obtain ⟨xs, hxs, hx⟩ := bind_inv h
    exact ⟨xs, hi, hxs, hx⟩
  · cases h

lemma eoListFind_spec {i : Int} (h : eoListFind op nil a x = some i) :
    ∃ xs, getNAryChildren op nil a = some xs ∧ (i < 0 ↔ x ∉ xs) := by
  obtain ⟨xs, hxs, hi⟩ := map_inv h
  refine ⟨xs, hxs, ?_⟩
  rw [← hi]
  by_cases hx : x ∈ xs
  · simp [hx]
  · simp [hx]

lemma eoListRev_spec (h : eoListRev op nil a = some r) :
    ∃ xs, getNAryChildren op nil a = some xs ∧ r = prependNAryChildren op nil xs.reverse := by
  obtain ⟨xs, hxs, hr⟩ := map_inv h
  exact ⟨xs, hxs, hr.symm⟩

/-- The search loop finds the first occurrence, or proves there is none. -/
lemma eraseLoop_spec (x : Term) : ∀ (ys : List Term) (i : Nat) (result : List Term),
      (x ∉ ys ∧ (eraseLoop x ys i result).2 = 0) ∨
      ∃ pre post, ys = pre ++ x :: post ∧ x ∉ pre ∧
        eraseLoop x ys i result = (result ++ pre, i + pre.length + 1) := by
  intro ys
  induction ys with
  | nil => intro i result; exact .inl ⟨by simp, rfl⟩
  | cons y ys ih =>
    intro i result
    by_cases hy : y = x
    · exact .inr ⟨[], ys, by simp [hy], by simp, by simp [eraseLoop, hy]⟩
    rcases ih (i + 1) (result ++ [y]) with ⟨hx, h0⟩ | ⟨pre, post, hys, hpre, hr⟩
    · refine .inl ⟨?_, by simpa [eraseLoop, hy] using h0⟩
      simp only [List.mem_cons, not_or]
      exact ⟨fun h => hy h.symm, hx⟩
    refine .inr ⟨y :: pre, post, by simp [hys], ?_, ?_⟩
    · simp only [List.mem_cons, not_or]
      exact ⟨fun h => hy h.symm, hpre⟩
    · simp only [eraseLoop, if_neg hy, hr, List.length_cons, Prod.mk.injEq]
      exact ⟨by simp, by omega⟩

lemma eoListErase_spec (h : eoListErase op nil a x = some r) :
    ∃ xs, getNAryChildren op nil a = some xs ∧ r = prependNAryChildren op nil (xs.erase x) := by
  obtain ⟨xs, hxs, hr⟩ := map_inv h
  refine ⟨xs, hxs, ?_⟩
  have ha := eq_of_getNAryChildren hxs
  rcases eraseLoop_spec x xs 0 [] with ⟨hx, h0⟩ | ⟨pre, post, hsplit, hpre, hloop⟩
  · simp only [h0, if_true] at hr
    rw [← hr, List.erase_of_not_mem hx]
    exact ha
  simp only [hloop, List.nil_append, Nat.zero_add, Nat.add_one_ne_zero, if_false] at hr
  rw [← hr, ha, getNAryNthTail_prepend _ _ (by rw [hsplit]; simp), hsplit,
    List.erase_append_right _ hpre, List.erase_cons_head, prependNAryChildren_append]
  congr 1
  rw [show pre.length + 1 = (pre ++ [x]).length by simp,
    show pre ++ x :: post = (pre ++ [x]) ++ post by simp, List.drop_left]

private lemma filterLoop_index_le {σ : Type} (step : σ → Term → Bool × σ) :
    ∀ (xs : List Term) (i : Nat) (s : σ) (res : List Term) (ci cs : Nat),
      ci ≤ i → (filterLoop step xs i s res ci cs).2.1 ≤ i + xs.length := by
  intro xs
  induction xs with
  | nil => intro i s res ci cs h; simpa [filterLoop] using h
  | cons x xs ih =>
    intro i s res ci cs h
    simp only [filterLoop, List.length_cons]
    split
    · exact (ih (i + 1) _ _ _ _ (by omega)).trans (by omega)
    · exact (ih (i + 1) _ _ _ _ le_rfl).trans (by omega)

/-- While nothing has been dropped, no prefix is cut off. -/
private lemma filterLoop_prefix_zero {σ : Type} (step : σ → Term → Bool × σ) :
    ∀ (xs : List Term) (i : Nat) (s : σ) (res : List Term) (ci cs : Nat),
      (ci = 0 → cs = 0) → (filterLoop step xs i s res ci cs).2.1 = 0 →
      (filterLoop step xs i s res ci cs).2.2 = 0 := by
  intro xs
  induction xs with
  | nil => intro i s res ci cs h; simpa [filterLoop] using h
  | cons x xs ih =>
    intro i s res ci cs h
    simp only [filterLoop]
    split
    · exact ih (i + 1) _ _ _ _ h
    · exact ih (i + 1) _ _ _ _ (by omega)

lemma rebuild_spec {σ : Type} (step : σ → Term → Bool × σ) (s : σ)
    {xs : List Term} (ha : a = prependNAryChildren op nil xs) :
    rebuild op a (filterLoop step xs 0 s [] 0 0) =
      prependNAryChildren op nil (filterWith step s xs) := by
  rw [← filterLoop_spec step xs s]
  have hle := filterLoop_index_le step xs 0 s [] 0 0 le_rfl
  rw [Nat.zero_add] at hle
  unfold rebuild spliceAt
  split
  swap
  · rw [ha, getNAryNthTail_prepend _ _ hle, prependNAryChildren_append]
  rename_i h0
  have hcs := filterLoop_prefix_zero step xs 0 s [] 0 0 (fun _ => rfl) h0
  rw [h0, hcs, ha]
  simp

/-- The deduplicating pass keeps every element it has not seen before. -/
private lemma mem_filterWith_setof :
    ∀ (xs seen : List Term), ∀ x ∈ xs, x ∉ seen → x ∈ filterWith setofStep seen xs := by
  intro xs
  induction xs with
  | nil => intro seen x hx; simp at hx
  | cons y xs ih =>
    intro seen x hx hseen
    by_cases hxy : x = y
    · subst hxy
      simp [filterWith, setofStep, hseen]
    have hx' : x ∈ xs := (List.mem_cons.1 hx).resolve_left hxy
    have hrec := ih (y :: seen) x hx' (by simp [hxy, hseen])
    by_cases hy : y ∈ seen
    · simpa [filterWith, setofStep, hy] using hrec
    · simpa [filterWith, setofStep, hy] using .inr hrec

lemma eoListSetof_spec (h : eoListSetof op nil a = some r) :
    ∃ xs ys, getNAryChildren op nil a = some xs ∧ r = prependNAryChildren op nil ys ∧
      ys ⊆ xs ∧ xs ⊆ ys := by
  obtain ⟨xs, hxs, hr⟩ := map_inv h
  refine ⟨xs, filterWith setofStep [] xs, hxs, ?_, filterWith_subset _ _ _, ?_⟩
  · rw [← hr]
    exact rebuild_spec setofStep [] (eq_of_getNAryChildren hxs)
  · intro x hx
    exact mem_filterWith_setof xs [] x hx (by simp)

lemma eoListDiff_spec (h : eoListDiff op nil a b = some r) :
    ∃ xs ys zs, getNAryChildren op nil a = some xs ∧ getNAryChildren op nil b = some ys ∧
      r = prependNAryChildren op nil zs ∧ zs ⊆ xs ∧ ∀ x ∈ xs, x ∈ zs ∨ x ∈ ys := by
  obtain ⟨xs, hxs, h⟩ := bind_inv h
  obtain ⟨ys, hys, hr⟩ := map_inv h
  split at hr
  · rename_i hab
    subst hab
    obtain rfl : xs = ys := by
      rw [hxs] at hys
      exact some.inj hys
    exact ⟨xs, xs, [], hxs, hxs, hr.symm, by simp, fun x hx => .inr hx⟩
  refine ⟨xs, ys, _, hxs, hys, ?_, filterWith_subset diffStep (fun x => ys.count x) xs, ?_⟩
  · rw [← hr]
    exact rebuild_spec diffStep _ (eq_of_getNAryChildren hxs)
  -- a count can only fall, so a dropped element was counted at the start
  refine mem_filterWith_or diffStep (I := fun c => ∀ x, c x ≤ ys.count x) ?_ ?_ xs _
    (fun x => le_rfl)
  · intro c x hc y
    simp only [diffStep]
    split
    · exact (Nat.sub_le _ _).trans (hc y)
    · exact hc y
  intro c x hc hdrop
  simp only [diffStep, decide_eq_false_iff_not] at hdrop
  have := hc x
  exact List.count_pos_iff.1 (by omega)

/-- When `eo::list_minclude` answers `true`, the elements of the first list
occur in the second. -/
lemma eoListMinclude_spec {v : Bool} (h : eoListMinclude op nil a b = some (.bool v)) :
    ∃ xs ys, getNAryChildren op nil a = some xs ∧ getNAryChildren op nil b = some ys ∧
      (v = true ↔ ∀ x, xs.count x ≤ ys.count x) := by
  obtain ⟨xs, hxs, h⟩ := bind_inv h
  obtain ⟨ys, hys, hr⟩ := map_inv h
  refine ⟨xs, ys, hxs, hys, ?_⟩
  split at hr
  · rename_i hab
    subst hab
    obtain rfl : xs = ys := by
      rw [hxs] at hys
      exact some.inj hys
    simp_all
  simp only [Term.bool.injEq] at hr
  rw [← hr, List.all_eq_true]
  constructor
  · intro hall x
    by_cases hx : x ∈ xs
    · simpa using hall x hx
    · rw [List.count_eq_zero_of_not_mem hx]
      exact Nat.zero_le _
  · intro hall x _
    simpa using hall x

lemma eoListSingletonElim_spec (h : eoListSingletonElim op nil a = some r) :
    r = a ∨ a = prependNAryChildren op nil [r] := by
  obtain ⟨xs, hxs, hr⟩ := map_inv h
  split at hr
  · rename_i x
    subst hr
    exact .inr (eq_of_getNAryChildren hxs)
  · exact .inl hr.symm

/-- When `eo::list_meq` answers `true`, the two lists have the same elements with
the same multiplicities. -/
lemma eoListMeq_spec (h : eoListMeq op nil a b = some (.bool true)) :
    ∃ xs ys, getNAryChildren op nil a = some xs ∧ getNAryChildren op nil b = some ys ∧
      xs.Perm ys := by
  obtain ⟨xs, hxs, h⟩ := bind_inv h
  obtain ⟨ys, hys, hr⟩ := map_inv h
  refine ⟨xs, ys, hxs, hys, ?_⟩
  split at hr
  · rename_i hab
    subst hab
    cases hxs.symm.trans hys
    exact List.Perm.refl xs
  split at hr
  · simp at hr
  rename_i hlen
  simp only [Term.bool.injEq, List.all_eq_true, decide_eq_true_eq] at hr
  exact perm_of_count_eq (not_not.1 hlen) hr

end EthosCpc
