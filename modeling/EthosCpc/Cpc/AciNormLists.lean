import EthosCpc.Cpc.AciNormSpec

/-!
# Normal forms of associative operators as lists

The programs of `programs/AciNorm.eo` do not get stuck on typed terms: a normal
form is the list of the operands, in their order, and for an idempotent operator
without repetitions.  Two terms with the same operands are accepted by the rule
`aci_norm`, up to order where the operator is commutative.
-/

namespace EthosCpc

open Term (bop uop)
open Library
open Option (bind_some map_some)

variable {Γ : Nat → Ty} {s : Sym} {nil : Term} {E : Term → Prop}

/-! ## Builtin operators on lists -/

lemma eoListConcat_prepend (hnil : naryView (.sym s) nil = ([], nil)) (xs ys : List Term) :
    eoListConcat (.sym s) nil (prependNAryChildren (.sym s) nil xs)
        (prependNAryChildren (.sym s) nil ys) =
      some (prependNAryChildren (.sym s) nil (xs ++ ys)) := by
  rw [eoListConcat, if_pos (isNAryList_iff.2 ⟨ys, getNAryChildren_prepend hnil ys⟩),
    getNAryChildren_prepend hnil, map_some]
  split
  swap
  · rw [prependNAryChildren_append]
  rename_i hys
  cases ys with
  | nil => rw [List.append_nil]
  | cons y ys =>
    have hview := congrArg (fun t => (naryView (.sym s) t).1) hys
    rw [naryView_prepend, hnil] at hview
    cases hview

/-- A list without repetitions. -/
def setof (xs : List Term) : List Term := filterWith setofStep [] xs

lemma eoListSetof_prepend (hnil : naryView (.sym s) nil = ([], nil)) (xs : List Term) :
    eoListSetof (.sym s) nil (prependNAryChildren (.sym s) nil xs) =
      some (prependNAryChildren (.sym s) nil (setof xs)) := by
  rw [eoListSetof, getNAryChildren_prepend hnil, map_some, rebuild_spec setofStep [] rfl]
  rfl

variable {x : Term}

lemma mem_filterWith_setofStep (xs seen : List Term) :
    x ∈ filterWith setofStep seen xs ↔ x ∈ xs ∧ x ∉ seen := by
  induction xs generalizing seen with
  | nil => simp [filterWith]
  | cons y xs ih =>
    by_cases hy : y ∈ seen
    · simp only [filterWith, setofStep, hy, not_true, decide_false, Bool.false_eq_true, if_false]
      rw [ih]
      simp only [List.mem_cons, not_or]
      constructor
      · rintro ⟨hx, -, hseen⟩
        exact ⟨.inr hx, hseen⟩
      rintro ⟨rfl | hx, hseen⟩
      · contradiction
      · exact ⟨hx, fun heq => hseen (heq ▸ hy), hseen⟩
    simp only [filterWith, setofStep, hy, not_false_eq_true, decide_true, if_true]
    rw [List.mem_cons, ih]
    simp only [List.mem_cons, not_or]
    constructor
    · rintro (rfl | ⟨hx, -, hseen⟩)
      · exact ⟨.inl rfl, hy⟩
      · exact ⟨.inr hx, hseen⟩
    rintro ⟨rfl | hx, hseen⟩
    · exact .inl rfl
    by_cases hxy : x = y
    · exact .inl hxy
    · exact .inr ⟨hx, hxy, hseen⟩

lemma nodup_filterWith_setofStep (xs seen : List Term) : (filterWith setofStep seen xs).Nodup := by
  induction xs generalizing seen with
  | nil => exact List.nodup_nil
  | cons y xs ih =>
    rw [filterWith]
    split
    · refine List.nodup_cons.2 ⟨?_, ih _⟩
      rw [setofStep, mem_filterWith_setofStep]
      simp
    · exact ih _

lemma mem_setof {xs : List Term} : x ∈ setof xs ↔ x ∈ xs := by
  rw [setof, mem_filterWith_setofStep]
  simp

lemma nodup_setof (xs : List Term) : (setof xs).Nodup := nodup_filterWith_setofStep xs []

variable {xs ys : List Term}

/-- Permutations are equal as multisets. -/
lemma eoListMeq_prepend (hnil : naryView (.sym s) nil = ([], nil)) (h : xs.Perm ys) :
    eoListMeq (.sym s) nil (prependNAryChildren (.sym s) nil xs)
      (prependNAryChildren (.sym s) nil ys) = some (.bool true) := by
  rw [eoListMeq, getNAryChildren_prepend hnil, bind_some, getNAryChildren_prepend hnil, map_some]
  have hlen : xs.dedup.length = ys.dedup.length := h.dedup.length_eq
  split
  · rfl
  · rw [if_neg (not_not.2 hlen)]
    simp [fun x => h.count_eq x]

/-! ## Operands of a term -/

/-- The operands of nested applications of `s`, with what is done to a concatenation. -/
def flatWith (post : List Term → List Term) (s : Sym) (nil : Term) : Term → List Term
  | .app (.app f x) y =>
    if f = .sym s then post (flatWith post s nil x ++ flatWith post s nil y)
    else if .app (.app f x) y = nil then []
    else [.app (.app f x) y]
  | x => if x = nil then [] else [x]

/-- The lists of the operator with elements that satisfy `E`. -/
structure NormList (Γ : Nat → Ty) (s : Sym) (nil : Term) (E : Term → Prop) : Prop where
  view : naryView (.sym s) nil = ([], nil)
  nilFor : ∀ l, (∀ x ∈ l, E x) → nilFor Γ s (prependNAryChildren (.sym s) nil l) = some nil
  args : ∀ x y, E (bop s x y) → E x ∧ E y

lemma flatWith_nil (h : NormList Γ s nil E) (post : List Term → List Term) :
    flatWith post s nil nil = [] := by
  have hview := h.view
  unfold flatWith
  split
  swap
  · exact if_pos rfl
  rename_i f x y
  rw [naryView] at hview
  split at hview
  · cases hview
  · rename_i hf
    rw [if_neg hf, if_pos rfl]

variable {t : Term}

lemma flatWith_other (ht : ∀ x y, t ≠ bop s x y) (hne : t ≠ nil)
    (post : List Term → List Term) : flatWith post s nil t = [t] := by
  unfold flatWith
  split
  swap
  · exact if_neg hne
  rename_i f x y
  have hf : f ≠ .sym s := by
    rintro rfl
    exact ht x y rfl
  rw [if_neg hf, if_neg hne]

lemma flatWith_prepend (h : NormList Γ s nil E) (l : List Term) :
    flatWith id s nil (prependNAryChildren (.sym s) nil l) = l.flatMap (flatWith id s nil) := by
  induction l with
  | nil => exact flatWith_nil h id
  | cons x l ih =>
    rw [prependNAryChildren_cons, flatWith, if_pos rfl, ih, List.flatMap_cons]
    rfl

variable (h : NormList Γ s nil E)

include h

lemma listConcat_prepend (hxs : ∀ x ∈ xs, E x) :
    listConcat Γ s (prependNAryChildren (.sym s) nil xs) (prependNAryChildren (.sym s) nil ys) =
      some (prependNAryChildren (.sym s) nil (xs ++ ys)) := by
  rw [listConcat, h.nilFor xs hxs, bind_some, eoListConcat_prepend h.view]

lemma normRec_eq (post : Term → Option Term) (lpost : List Term → List Term)
    (hpost : ∀ l, (∀ x ∈ l, E x) → post (prependNAryChildren (.sym s) nil l) =
      some (prependNAryChildren (.sym s) nil (lpost l)))
    (hsub : ∀ l, lpost l ⊆ l) (t : Term) (ht : E t) :
    normRec Γ post s nil t = some (prependNAryChildren (.sym s) nil (flatWith lpost s nil t)) ∧
      ∀ x ∈ flatWith lpost s nil t, E x := by
  induction t using normRec.induct s nil with
  | case1 x y ihx ihy =>
    obtain ⟨hx, hy⟩ := h.args x y ht
    obtain ⟨hx, hex⟩ := ihx hx
    obtain ⟨hy, hey⟩ := ihy hy
    have happend : ∀ z ∈ flatWith lpost s nil x ++ flatWith lpost s nil y, E z :=
      List.forall_mem_append.2 ⟨hex, hey⟩
    rw [normRec, if_pos rfl, hx, hy, bind_some, bind_some,
      listConcat_prepend h hex, bind_some, hpost _ happend, flatWith, if_pos rfl]
    exact ⟨rfl, fun z hz => happend z (hsub _ hz)⟩
  | case2 f x y hf hid =>
    rw [normRec, if_neg hf, if_pos hid, flatWith, if_neg hf, if_pos hid]
    exact ⟨rfl, by simp⟩
  | case3 f x y hf hid =>
    rw [normRec, if_neg hf, if_neg hid, flatWith, if_neg hf, if_neg hid]
    exact ⟨rfl, List.forall_mem_singleton.2 ht⟩
  | case4 hx =>
    rw [normRec, flatWith, if_pos rfl, if_pos rfl]
    · exact ⟨rfl, by simp⟩
    · exact hx
    · exact hx
  | case5 x hx hid =>
    rw [normRec, flatWith, if_neg hid, if_neg hid]
    · exact ⟨rfl, List.forall_mem_singleton.2 ht⟩
    · exact hx
    · exact hx

omit h

/-! ## Normal forms -/

lemma mem_flatWith_setof (t : Term) : x ∈ flatWith setof s nil t ↔ x ∈ flatWith id s nil t := by
  induction t using flatWith.induct s nil with
  | case1 a b iha ihb =>
    rw [flatWith, if_pos rfl, flatWith, if_pos rfl, mem_setof, List.mem_append, iha, ihb, id,
      List.mem_append]
  | case2 f a b hf hid => rw [flatWith, if_neg hf, if_pos hid, flatWith, if_neg hf, if_pos hid]
  | case3 f a b hf hid => rw [flatWith, if_neg hf, if_neg hid, flatWith, if_neg hf, if_neg hid]
  | case4 ha =>
    rw [flatWith, flatWith]
    · exact ha
    · exact ha
  | case5 t ht hid =>
    rw [flatWith, flatWith]
    · exact ht
    · exact ht

lemma nodup_flatWith_setof (t : Term) : (flatWith setof s nil t).Nodup := by
  unfold flatWith
  split
  swap
  · split
    · exact List.nodup_nil
    · exact List.nodup_singleton _
  split
  · exact nodup_setof _
  split
  · exact List.nodup_nil
  · exact List.nodup_singleton _

def normOperands (s : Sym) (nil t : Term) : List Term :=
  if s.aciIdempotent then flatWith setof s nil t else flatWith id s nil t

/-- The list with the given elements, a single element by itself. -/
def ofOperands (s : Sym) (nil : Term) : List Term → Term
  | [x] => x
  | xs => prependNAryChildren (.sym s) nil xs

def markSorted (s : Sym) (t : Term) : Term := if s.aciCommutative then aciSorted s t else t

lemma listSingletonElim_prepend (h : NormList Γ s nil E) {xs : List Term} (hxs : ∀ x ∈ xs, E x) :
    listSingletonElim Γ s (prependNAryChildren (.sym s) nil xs) = some (ofOperands s nil xs) := by
  rw [listSingletonElim, h.nilFor xs hxs, bind_some, eoListSingletonElim,
    getNAryChildren_prepend h.view, map_some]
  match xs with
  | [] => rfl
  | [x] => rfl
  | _ :: _ :: _ => rfl

lemma getANorm_eq (h : NormList Γ s nil E) (ht : E t) (hnil : nilAt Γ s t = some nil) :
    getANorm Γ s t = some (ofOperands s nil (flatWith id s nil t)) := by
  obtain ⟨hrec, hels⟩ := normRec_eq h some id (fun _ _ => rfl) (fun _ _ hx => hx) t ht
  rw [getANorm, hnil, bind_some, getANormRec, hrec, bind_some, listSingletonElim_prepend h hels]

lemma getAiNorm_eq (h : NormList Γ s nil E) (ht : E t) (hnil : nilAt Γ s t = some nil) :
    getAiNorm Γ s t = some (ofOperands s nil (flatWith setof s nil t)) := by
  have hpost : ∀ l, (∀ x ∈ l, E x) → listSetof Γ s (prependNAryChildren (.sym s) nil l) =
      some (prependNAryChildren (.sym s) nil (setof l)) := by
    intro l hl
    rw [listSetof, h.nilFor l hl, bind_some, eoListSetof_prepend h.view]
  obtain ⟨hrec, hels⟩ := normRec_eq h (listSetof Γ s) setof hpost (fun _ _ hx => mem_setof.1 hx) t ht
  rw [getAiNorm, hnil, bind_some, getAiNormRec, hrec, bind_some, listSingletonElim_prepend h hels]

lemma getAciNormalForm_eq (hs : s.aciAssociative = true) (h : NormList Γ s nil E) {y : Term}
    (ht : E (bop s x y)) (hnil : nilAt Γ s (bop s x y) = some nil) :
    getAciNormalForm Γ (bop s x y) =
      some (markSorted s (ofOperands s nil (normOperands s nil (bop s x y)))) := by
  have ha := getANorm_eq h ht hnil
  have hai := getAiNorm_eq h ht hnil
  cases s with
  | or => rw [getAciNormalForm, hai]; rfl
  | and => rw [getAciNormalForm, hai]; rfl
  | reUnion => rw [getAciNormalForm, hai]; rfl
  | reInter => rw [getAciNormalForm, hai]; rfl
  | bvor => rw [getAciNormalForm, hai]; rfl
  | bvand => rw [getAciNormalForm, hai]; rfl
  | bvxor => rw [getAciNormalForm, ha]; rfl
  | strConcat => rw [getAciNormalForm, ha]; rfl
  | reConcat => rw [getAciNormalForm, ha]; rfl
  | concat => rw [getAciNormalForm, ha]; rfl
  | _ => contradiction

/-! ## Acceptance -/

variable {T : Ty}

lemma not_aciSorted (ht : typeof Γ t = some T) (f u : Term) :
    t ≠ .app (.app (.sym .aciSorted) f) u := by
  rintro rfl
  obtain ⟨A, B, _, _, h⟩ := typeof_bop_inv rfl ht
  cases h

/-- The comparison with an unmarked term does not get stuck. -/
lemma aciNormEq_isSome {t b : Term} (hb : ∀ f u, b ≠ .app (.app (.sym .aciSorted) f) u) :
    ∃ r, aciNormEq Γ t b = some r := by
  unfold aciNormEq
  split
  · exact ⟨_, rfl⟩
  split
  swap
  · exact ⟨_, rfl⟩
  split
  · exact ⟨_, rfl⟩
  unfold aciSortedEq
  split
  · exact absurd rfl (hb _ _)
  · exact ⟨_, rfl⟩

variable {a b an bn : Term}

lemma isAciNorm_of_third (ha : ∀ f u, a ≠ .app (.app (.sym .aciSorted) f) u)
    (hb : ∀ f u, b ≠ .app (.app (.sym .aciSorted) f) u) (h : aciNormEq Γ an bn = some true) :
    isAciNorm Γ a b an bn = some true := by
  obtain ⟨r, hr⟩ := aciNormEq_isSome (Γ := Γ) (t := an) hb
  obtain ⟨r', hr'⟩ := aciNormEq_isSome (Γ := Γ) (t := bn) ha
  rw [isAciNorm, hr, hr', bind_some, bind_some, h]
  cases r <;> cases r' <;> rfl

lemma aciNormEq_self (t : Term) : aciNormEq Γ t t = some true := by
  unfold aciNormEq
  exact if_pos rfl

lemma aciNormEq_sorted {t u : Term} (h : listMeq Γ s t u = some (.bool true)) :
    aciNormEq Γ (aciSorted s t) (aciSorted s u) = some true := by
  change aciNormEq Γ (bop .aciSorted (.sym s) t) (bop .aciSorted (.sym s) u) = some true
  unfold aciNormEq
  split
  · rfl
  by_cases ht : t = bop .aciSorted (.sym s) u
  · exact if_pos ht
  refine (if_neg ht).trans ?_
  rw [aciSortedEq, if_pos rfl, h]
  rfl

lemma aciNormEq_of_perm (h : NormList Γ s nil E) (hxs : ∀ x ∈ xs, E x)
    (hperm : xs.Perm ys) (heq : s.aciCommutative = false → xs = ys) :
    aciNormEq Γ (markSorted s (ofOperands s nil xs)) (markSorted s (ofOperands s nil ys)) =
      some true := by
  cases hs : s.aciCommutative with
  | false =>
    rw [heq hs]
    exact aciNormEq_self _
  | true =>
    rw [markSorted, if_pos hs, markSorted, if_pos hs]
    match xs, ys, hperm with
    | [], ys, hperm =>
      rw [List.nil_perm.1 hperm]
      exact aciNormEq_self _
    | [x], ys, hperm =>
      rw [List.singleton_perm.1 hperm]
      exact aciNormEq_self _
    | x :: x' :: xs, [], hperm => simp at hperm
    | x :: x' :: xs, [y], hperm => simpa using hperm.length_eq
    | x :: x' :: xs, y :: y' :: ys, hperm =>
      refine aciNormEq_sorted ?_
      rw [listMeq, ofOperands, h.nilFor _ hxs, bind_some, ofOperands]
      · exact eoListMeq_prepend h.view hperm
      · simp
      · simp

/-- The rule accepts terms with the same operands. -/
lemma aciNorm_of_forms (han : getAciNormalForm Γ a = some an)
    (hbn : getAciNormalForm Γ b = some bn) (h : isAciNorm Γ a b an bn = some true) :
    aciNorm Γ (bop .eq a b) = some (bop .eq a b) := by
  rw [aciNorm, han, bind_some, hbn, bind_some, eoRequires_eq_some]
  exact ⟨decide_eq_true h, rfl⟩

/-- The same operands, as far as the rule for the operator asks. -/
structure SameOperands (s : Sym) (xs ys : List Term) : Prop where
  mem : ∀ x, x ∈ xs ↔ x ∈ ys
  perm : s.aciIdempotent = false → xs.Perm ys
  eq : s.aciCommutative = false → xs = ys

lemma SameOperands.refl (xs : List Term) : SameOperands s xs xs :=
  ⟨fun _ => Iff.rfl, fun _ => .refl xs, fun _ => rfl⟩

lemma SameOperands.symm (h : SameOperands s xs ys) : SameOperands s ys xs :=
  ⟨fun x => (h.mem x).symm, fun hs => (h.perm hs).symm, fun hs => (h.eq hs).symm⟩

lemma SameOperands.trans {xs ys zs : List Term} (h : SameOperands s xs ys)
    (h' : SameOperands s ys zs) : SameOperands s xs zs :=
  ⟨fun x => (h.mem x).trans (h'.mem x), fun hs => (h.perm hs).trans (h'.perm hs),
    fun hs => (h.eq hs).trans (h'.eq hs)⟩

lemma aciIdempotent_of_not_commutative (hs : s.aciCommutative = false) :
    s.aciIdempotent = false := by
  cases s with
  | or | and | reUnion | reInter | bvor | bvand => cases hs
  | _ => rfl

lemma SameOperands.normOperands {a b : Term}
    (h : SameOperands s (flatWith id s nil a) (flatWith id s nil b)) :
    (normOperands s nil a).Perm (normOperands s nil b) ∧
      (s.aciCommutative = false → normOperands s nil a = normOperands s nil b) := by
  rw [EthosCpc.normOperands, EthosCpc.normOperands]
  cases hs : s.aciIdempotent with
  | true =>
    rw [if_pos rfl, if_pos rfl]
    constructor
    · refine (List.perm_ext_iff_of_nodup (nodup_flatWith_setof a) (nodup_flatWith_setof b)).2 ?_
      intro x
      rw [mem_flatWith_setof, mem_flatWith_setof]
      exact h.mem x
    · intro hcomm
      rw [aciIdempotent_of_not_commutative hcomm] at hs
      contradiction
  | false =>
    rw [if_neg Bool.false_ne_true, if_neg Bool.false_ne_true]
    exact ⟨h.perm hs, h.eq⟩

lemma normOperands_forall (h : NormList Γ s nil E) (ht : E t) :
    ∀ x ∈ normOperands s nil t, E x := by
  have hid := (normRec_eq h some id (fun _ _ => rfl) (fun _ _ hx => hx) t ht).2
  intro x hx
  rw [normOperands] at hx
  split at hx
  · exact hid x ((mem_flatWith_setof t).1 hx)
  · exact hid x hx

lemma ofOperands_normOperands (h : NormList Γ s nil E) (ht : ∀ x y, t ≠ bop s x y) :
    ofOperands s nil (normOperands s nil t) = t := by
  by_cases hnil : t = nil
  · rw [hnil, normOperands, flatWith_nil h, flatWith_nil h, ite_self]
    rfl
  · rw [normOperands, flatWith_other ht hnil, flatWith_other ht hnil, ite_self]
    rfl

lemma isAciNorm_of_first (h : aciNormEq Γ an b = some true) :
    isAciNorm Γ a b an bn = some true := by
  rw [isAciNorm, h]
  rfl

lemma aciNormEq_markSorted (t : Term) : aciNormEq Γ (markSorted s t) t = some true := by
  rw [markSorted]
  split
  swap
  · exact aciNormEq_self t
  rw [aciSorted, bop]
  unfold aciNormEq
  split
  · rfl
  · exact if_pos rfl

lemma aciNorm_of_sameOperands (hs : s.aciAssociative = true) (h : NormList Γ s nil E)
    {a b y bn : Term} (hterm : a = bop s x y) (ha : E a) (hb : E b)
    (hta : typeof Γ a = some T) (htb : typeof Γ b = some T) (hnil : eoNil s T = some nil)
    (hbn : getAciNormalForm Γ b = some bn)
    (hsame : SameOperands s (flatWith id s nil a) (flatWith id s nil b)) :
    aciNorm Γ (bop .eq a b) = some (bop .eq a b) := by
  subst hterm
  have han := getAciNormalForm_eq hs h ha (by rw [nilAt, hta, bind_some, hnil])
  obtain ⟨hperm, heq⟩ := hsame.normOperands
  have hexists : (∃ u v, b = bop s u v) ∨ ∀ u v, b ≠ bop s u v := by
    by_cases hb : ∃ u v, b = bop s u v
    · exact .inl hb
    · exact .inr fun u v heq => hb ⟨u, v, heq⟩
  rcases hexists with ⟨u, v, rfl⟩ | hother
  · have hbn' := getAciNormalForm_eq hs h hb (by rw [nilAt, htb, bind_some, hnil])
    refine aciNorm_of_forms han hbn' (isAciNorm_of_third (not_aciSorted hta) (not_aciSorted htb) ?_)
    exact aciNormEq_of_perm h (normOperands_forall h ha) hperm heq
  refine aciNorm_of_forms han hbn (isAciNorm_of_first ?_)
  -- the operands of the other side are at most one, so that the order does not matter
  have hself := ofOperands_normOperands h hother
  have hlist : normOperands s nil (bop s x y) = normOperands s nil b := by
    by_cases hbnil : b = nil
    · have hempty : normOperands s nil b = [] := by
        rw [hbnil, normOperands, flatWith_nil h, flatWith_nil h, ite_self]
      rw [hempty] at hperm ⊢
      exact hperm.eq_nil
    have hsingle : normOperands s nil b = [b] := by
      rw [normOperands, flatWith_other hother hbnil, flatWith_other hother hbnil, ite_self]
    rw [hsingle] at hperm ⊢
    exact List.perm_singleton.1 hperm
  rw [hlist, hself]
  exact aciNormEq_markSorted b

lemma aciNorm_self {a an : Term} (h : getAciNormalForm Γ a = some an) (ht : ∃ T, typeof Γ a = some T) :
    aciNorm Γ (bop .eq a a) = some (bop .eq a a) := by
  obtain ⟨T, ht⟩ := ht
  exact aciNorm_of_forms h h
    (isAciNorm_of_third (not_aciSorted ht) (not_aciSorted ht) (aciNormEq_self an))

/-! ## The operators of the rule -/

/-- The operator combines two terms of type `T` to one of type `T`, and only these. -/
structure Closed (Γ : Nat → Ty) (s : Sym) (T : Ty) : Prop where
  args : ∀ x y, typeof Γ (bop s x y) = some T → typeof Γ x = some T ∧ typeof Γ y = some T
  result : ∀ x y, typeof Γ x = some T → typeof Γ y = some T → typeof Γ (bop s x y) = some T

lemma closed_fn2 (hs : s.arity = 2) (hsym : symTy s = tyFn2 T T T) : Closed Γ s T where
  args := by
    intro x y h
    obtain ⟨A, B, hA, hB, h⟩ := typeof_bop_inv hs h
    rw [hsym] at h
    obtain ⟨_, _, heq, _⟩ := tyFn2_inv h
    cases heq
    exact ⟨hA, hB⟩
  result := by
    intro x y hx hy
    rw [typeof_bop Γ hs, hx, hy, hsym]
    simp [tyFn2]

lemma closed_bv2 {w : Nat} (hs : s.arity = 2) (hsym : symTy s = tyBv2 .bitvec) :
    Closed Γ s (.bitvec w) where
  args := by
    intro x y h
    obtain ⟨A, B, hA, hB, h⟩ := typeof_bop_inv hs h
    rw [hsym] at h
    obtain ⟨_, _, w', heq, hw⟩ := tyBv2_inv h
    cases heq
    cases hw
    exact ⟨hA, hB⟩
  result := by
    intro x y hx hy
    rw [typeof_bop Γ hs, hx, hy, hsym]
    simp [tyBv2]

lemma closed_strConcat : Closed Γ .strConcat (.seq T) where
  args := by
    intro x y h
    obtain ⟨A, B, hA, hB, h⟩ := typeof_bop_inv rfl h
    obtain ⟨_, _, S, heq, hS⟩ := tySeq2_inv h
    cases heq
    cases hS
    exact ⟨hA, hB⟩
  result := by
    intro x y hx hy
    rw [typeof_bop Γ rfl, hx, hy]
    simp [symTy.eq_def, tySeq2]

lemma Closed.typeof_prepend (h : Closed Γ s T) (hnil : typeof Γ nil = some T)
    {l : List Term} (hl : ∀ x ∈ l, typeof Γ x = some T) :
    typeof Γ (prependNAryChildren (.sym s) nil l) = some T := by
  induction l with
  | nil => exact hnil
  | cons x l ih =>
    obtain ⟨hx, hl⟩ := List.forall_mem_cons.1 hl
    rw [prependNAryChildren_cons]
    exact h.result _ _ hx (ih hl)

lemma Closed.normList (h : Closed Γ s T) (hview : naryView (.sym s) nil = ([], nil))
    (htype : typeof Γ nil = some T) (hnil : eoNil s T = some nil)
    (hpar : s.nilIsParameterized = false → eoNil s .bool = some nil) :
    NormList Γ s nil fun t => typeof Γ t = some T where
  view := hview
  nilFor := by
    intro l hl
    rw [nilFor]
    split
    · rw [h.typeof_prepend htype hl, bind_some, hnil]
    · rename_i hpar'
      exact hpar (by simpa using hpar')
  args := h.args

end EthosCpc
