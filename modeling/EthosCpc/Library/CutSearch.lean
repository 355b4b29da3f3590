import Mathlib.Data.Finset.Card
import EthosCpc.Library.Inversion

/-!
# Search with a cut-off on the path

To find a result for a node, its alternatives are tried in order; an alternative
needs a result for each of its items, which are known results or other nodes.  A
node on the path to itself fails.  Nothing is remembered between nodes.

The search is complete: a node that has any derivation has one without a node
that occurs on the path to itself.  It ends if and only if there is no infinite
chain of nodes that are tried.
-/

namespace EthosCpc.Library.CutSearch

open List (mem_cons_of_mem mem_cons_self not_mem_nil)

variable {α β γ : Type} [DecidableEq α]

/-- Results for all items, or none if one of them has none. -/
def allOf (f : α → Option (Option β)) : List (β ⊕ α) → Option (Option (List β))
  | [] => some (some [])
  | .inl b :: items => (allOf f items).map (Option.map (b :: ·))
  | .inr a :: items => do
      match ← f a with
      | none => pure none
      | some b => (allOf f items).map (Option.map (b :: ·))

/-- The first alternative that has results for all its items. -/
def firstOf (f : α → Option (Option β)) (build : γ → List β → β) :
    List (γ × List (β ⊕ α)) → Option (Option β)
  | [] => some none
  | alt :: alts => do
      match ← allOf f alt.2 with
      | some bs => pure (some (build alt.1 bs))
      | none => firstOf f build alts

variable (alts : α → List (γ × List (β ⊕ α))) (build : α → γ → List β → β)

/-- The search, with a bound on its depth; `some none` is the answer that there is no result. -/
def search : Nat → List α → α → Option (Option β)
  | 0, _, _ => none
  | k + 1, path, a =>
    if a ∈ path then some none else firstOf (search k (a :: path)) (build a) (alts a)

/-- There is a result for a node that does not need the nodes of the path. -/
inductive Deriv : List α → α → Prop
  | mk {path : List α} {a : α} {alt : γ × List (β ⊕ α)} (hpath : a ∉ path) (halt : alt ∈ alts a)
      (hitems : ∀ b, .inr b ∈ alt.2 → Deriv (a :: path) b) : Deriv path a

def Feasible (path : List α) (items : List (β ⊕ α)) : Prop :=
  ∀ b, .inr b ∈ items → Deriv alts path b

/-- The node `s'.2` is tried for `s.2`: the alternatives before are not feasible, and the items
before are. -/
def Tried (s' s : List α × α) : Prop :=
  s.2 ∉ s.1 ∧ s'.1 = s.2 :: s.1 ∧ ∃ pre alt post xs ys, alts s.2 = pre ++ alt :: post ∧
    (∀ alt' ∈ pre, ¬ Feasible alts s'.1 alt'.2) ∧ alt.2 = xs ++ .inr s'.2 :: ys ∧
      Feasible alts s'.1 xs

variable {alts build}

/-! ## Answers -/

/-- The answers of `f` are right. -/
def Answers (alts : α → List (γ × List (β ⊕ α))) (path : List α) (f : α → Option (Option β)) :
    Prop :=
  ∀ a r, f a = some r → (r.isSome ↔ Deriv alts path a)

section Answers

variable {path : List α} {f : α → Option (Option β)} {g : γ → List β → β}

omit [DecidableEq α] in
lemma allOf_answer (hf : Answers alts path f) {items : List (β ⊕ α)} {r : Option (List β)}
    (h : allOf f items = some r) : r.isSome ↔ Feasible alts path items := by
  induction items generalizing r with
  | nil =>
    cases h
    exact iff_of_true rfl fun b hb => absurd hb not_mem_nil
  | cons item items ih =>
    cases item with
    | inl b =>
      obtain ⟨r', hr', heq⟩ := map_inv h
      rw [← heq, Option.isSome_map, ih hr']
      constructor
      · intro hall a ha
        cases ha with
        | tail _ ha => exact hall a ha
      · exact fun hall a ha => hall a (.tail _ ha)
    | inr a =>
      obtain ⟨r', hr', hrest⟩ := bind_inv h
      have ha := hf a r' hr'
      cases r' with
      | none =>
        cases hrest
        exact iff_of_false Bool.false_ne_true fun hall =>
          Bool.false_ne_true (ha.2 (hall a (.head _)))
      | some b =>
        obtain ⟨r'', hr'', heq⟩ := map_inv hrest
        rw [← heq, Option.isSome_map, ih hr'']
        constructor
        · intro hall a' ha'
          cases ha' with
          | head => exact ha.1 rfl
          | tail _ ha' => exact hall a' ha'
        · exact fun hall a' ha' => hall a' (.tail _ ha')

omit [DecidableEq α] in
lemma firstOf_answer (hf : Answers alts path f) {as : List (γ × List (β ⊕ α))} {r : Option β}
    (h : firstOf f g as = some r) : r.isSome ↔ ∃ alt ∈ as, Feasible alts path alt.2 := by
  induction as with
  | nil =>
    cases h
    exact iff_of_false Bool.false_ne_true fun ⟨_, ha, _⟩ => absurd ha not_mem_nil
  | cons alt as ih =>
    obtain ⟨r', hr', hrest⟩ := bind_inv h
    have halt := allOf_answer hf hr'
    cases r' with
    | none =>
      rw [ih hrest]
      constructor
      · exact fun ⟨a, ha, hfeas⟩ => ⟨a, .tail _ ha, hfeas⟩
      rintro ⟨a, ha, hfeas⟩
      cases ha with
      | head => exact absurd (halt.2 hfeas) Bool.false_ne_true
      | tail _ ha => exact ⟨a, ha, hfeas⟩
    | some bs =>
      cases hrest
      exact iff_of_true rfl ⟨alt, .head _, halt.1 rfl⟩

end Answers

lemma search_answer (k : Nat) (path : List α) : Answers alts path (search alts build k path) := by
  induction k generalizing path with
  | zero =>
    intro a r h
    cases h
  | succ k ih =>
    intro a r h
    unfold search at h
    by_cases hpath : a ∈ path
    · rw [if_pos hpath] at h
      cases h
      refine iff_of_false Bool.false_ne_true fun hd => ?_
      cases hd with
      | mk hnot => exact hnot hpath
    rw [if_neg hpath] at h
    rw [firstOf_answer (ih (a :: path)) h]
    constructor
    · rintro ⟨alt, halt, hfeas⟩
      exact .mk hpath halt hfeas
    · rintro ⟨-, halt, hitems⟩
      exact ⟨_, halt, hitems⟩

/-! ## Properties of results -/

/-- A result for an item: the known one, or one with a property. -/
def ItemOk (P : α → β → Prop) (b : β) : β ⊕ α → Prop
  | .inl b' => b = b'
  | .inr a => P a b

lemma search_keeps {P : α → β → Prop}
    (hP : ∀ a alt, alt ∈ alts a → ∀ bs, List.Forall₂ (ItemOk P) bs alt.2 → P a (build a alt.1 bs))
    (k : Nat) (path : List α) (a : α) (b : β) (h : search alts build k path a = some (some b)) :
    P a b := by
  induction k generalizing path a b with
  | zero => cases h
  | succ k ih =>
    unfold search at h
    by_cases hpath : a ∈ path
    · rw [if_pos hpath] at h
      cases h
    rw [if_neg hpath] at h
    have hall : ∀ items bs, allOf (search alts build k (a :: path)) items = some (some bs) →
        List.Forall₂ (ItemOk P) bs items := by
      intro items
      induction items with
      | nil =>
        intro bs hbs
        cases hbs
        exact .nil
      | cons item items ihitems =>
        intro bs hbs
        cases item with
        | inl b' =>
          obtain ⟨r, hr, heq⟩ := map_inv hbs
          obtain ⟨bs', rfl, rfl⟩ := map_inv heq
          exact .cons rfl (ihitems bs' hr)
        | inr a' =>
          obtain ⟨r', hr', hrest⟩ := bind_inv hbs
          cases r' with
          | none => cases hrest
          | some b' =>
            obtain ⟨r, hr, heq⟩ := map_inv hrest
            obtain ⟨bs', rfl, rfl⟩ := map_inv heq
            exact .cons (ih _ a' b' hr') (ihitems bs' hr)
    have hfirst : ∀ as, (∀ alt ∈ as, alt ∈ alts a) →
        firstOf (search alts build k (a :: path)) (build a) as = some (some b) → P a b := by
      intro as
      induction as with
      | nil =>
        intro _ hres
        cases hres
      | cons alt as ihas =>
        intro hmem hres
        obtain ⟨r, hr, hrest⟩ := bind_inv hres
        cases r with
        | none => exact ihas (fun alt' h' => hmem alt' (.tail _ h')) hrest
        | some bs =>
          cases hrest
          exact hP a alt (hmem alt (.head _)) bs (hall alt.2 bs hr)
    exact hfirst (alts a) (fun _ h => h) h

/-! ## Completeness -/

/-- There is a derivation of height at most `n`. -/
def Within (alts : α → List (γ × List (β ⊕ α))) : Nat → α → Prop
  | 0, _ => False
  | n + 1, a => ∃ alt ∈ alts a, ∀ b, .inr b ∈ alt.2 → Within alts n b

variable {a : α}

omit [DecidableEq α] in
lemma Within.mono {n m : Nat} (hle : n ≤ m) (h : Within alts n a) : Within alts m a := by
  induction n generalizing m a with
  | zero => exact h.elim
  | succ n ih =>
    cases m with
    | zero => exact absurd hle (Nat.not_succ_le_zero n)
    | succ m =>
      obtain ⟨alt, halt, hitems⟩ := h
      exact ⟨alt, halt, fun b hb => ih (Nat.le_of_succ_le_succ hle) (hitems b hb)⟩

variable {items : List (β ⊕ α)} {r : Option β}

omit [DecidableEq α] in
lemma exists_within_of_forall (h : ∀ b, .inr b ∈ items → ∃ n, Within alts n b) :
    ∃ n, ∀ b, .inr b ∈ items → Within alts n b := by
  induction items with
  | nil => exact ⟨0, fun b hb => absurd hb not_mem_nil⟩
  | cons item items ih =>
    obtain ⟨n, hn⟩ := ih fun b hb => h b (.tail _ hb)
    cases item with
    | inl b' =>
      refine ⟨n, fun b hb => ?_⟩
      cases hb with
      | tail _ hb => exact hn b hb
    | inr a =>
      obtain ⟨m, hm⟩ := h a (.head _)
      refine ⟨max n m, fun b hb => ?_⟩
      cases hb with
      | head => exact hm.mono (Nat.le_max_right n m)
      | tail _ hb => exact (hn b hb).mono (Nat.le_max_left n m)

omit [DecidableEq α] in
lemma Deriv.within {path : List α} (h : Deriv alts path a) : ∃ n, Within alts n a := by
  induction h with
  | mk hpath halt hitems ih =>
    obtain ⟨n, hn⟩ := exists_within_of_forall ih
    exact ⟨n + 1, _, halt, hn⟩

omit [DecidableEq α] in
/-- A derivation of least height does not need the nodes that have none of this height. -/
lemma Within.deriv {n : Nat} {path : List α} (h : Within alts n a)
    (hpath : ∀ p ∈ path, ¬ Within alts n p) : Deriv alts path a := by
  induction n generalizing path a with
  | zero => exact h.elim
  | succ n ih =>
    have hlow : ∀ p ∈ path, ¬ Within alts n p :=
      fun p hp hw => hpath p hp (hw.mono (Nat.le_succ n))
    by_cases ha : Within alts n a
    · exact ih ha hlow
    have hnot : a ∉ path := fun hmem => hpath a hmem h
    obtain ⟨alt, halt, hitems⟩ := h
    refine .mk hnot halt fun b hb => ih (hitems b hb) fun p hp => ?_
    cases hp with
    | head => exact ha
    | tail _ hp => exact hlow p hp

omit [DecidableEq α] in
lemma deriv_iff_within : Deriv alts [] a ↔ ∃ n, Within alts n a :=
  ⟨Deriv.within, fun ⟨_, hn⟩ => hn.deriv fun _ hp => absurd hp not_mem_nil⟩

/-! ## Termination -/

omit [DecidableEq α] in
lemma allOf_mono {f g : α → Option (Option β)} (h : ∀ a r, f a = some r → g a = some r)
    {r : Option (List β)} (hf : allOf f items = some r) :
    allOf g items = some r := by
  induction items generalizing r with
  | nil => exact hf
  | cons item items ih =>
    cases item with
    | inl b =>
      obtain ⟨r', hr', heq⟩ := map_inv hf
      rw [allOf, ih hr', ← heq]
      rfl
    | inr a =>
      obtain ⟨r', hr', hrest⟩ := bind_inv hf
      rw [allOf, h a r' hr']
      cases r' with
      | none => exact hrest
      | some b =>
        obtain ⟨r'', hr'', heq⟩ := map_inv hrest
        change (allOf g items).map _ = _
        rw [ih hr'', ← heq]
        rfl

omit [DecidableEq α] in
lemma firstOf_mono {f g : α → Option (Option β)} (h : ∀ a r, f a = some r → g a = some r)
    {build : γ → List β → β} {as : List (γ × List (β ⊕ α))}
    (hf : firstOf f build as = some r) : firstOf g build as = some r := by
  induction as with
  | nil => exact hf
  | cons alt as ih =>
    obtain ⟨r', hr', hrest⟩ := bind_inv hf
    rw [firstOf, allOf_mono h hr']
    cases r' with
    | none => exact ih hrest
    | some bs => exact hrest

/-- More depth does not change an answer. -/
lemma search_mono {k m : Nat} (hle : k ≤ m) {path : List α}
    (h : search alts build k path a = some r) : search alts build m path a = some r := by
  induction k generalizing m path a r with
  | zero => cases h
  | succ k ih =>
    cases m with
    | zero => exact absurd hle (Nat.not_succ_le_zero k)
    | succ m =>
      unfold search at h ⊢
      by_cases hpath : a ∈ path
      · rw [if_pos hpath] at h ⊢
        exact h
      · rw [if_neg hpath] at h ⊢
        exact firstOf_mono (fun a r hr => ih (Nat.le_of_succ_le_succ hle) hr) h

section Ends

variable {f : α → Option (Option β)} {g : γ → List β → β} {path : List α}

omit [DecidableEq α] in
lemma ends_of_allOf (hf : Answers alts path f) {xs ys : List (β ⊕ α)} {a : α}
    (hxs : Feasible alts path xs) {r : Option (List β)}
    (h : allOf f (xs ++ .inr a :: ys) = some r) : ∃ r', f a = some r' := by
  induction xs generalizing r with
  | nil =>
    obtain ⟨r', hr', _⟩ := bind_inv h
    exact ⟨r', hr'⟩
  | cons item xs ih =>
    have hrest : Feasible alts path xs := fun b hb => hxs b (.tail _ hb)
    cases item with
    | inl b =>
      obtain ⟨r', hr', _⟩ := map_inv h
      exact ih hrest hr'
    | inr a' =>
      obtain ⟨r', hr', h⟩ := bind_inv h
      have hsome := (hf a' r' hr').2 (hxs a' (.head _))
      cases r' with
      | none => cases hsome
      | some b =>
        obtain ⟨r'', hr'', _⟩ := map_inv h
        exact ih hrest hr''

omit [DecidableEq α] in
lemma ends_of_firstOf (hf : Answers alts path f) {pre post : List (γ × List (β ⊕ α))}
    {alt : γ × List (β ⊕ α)} (hpre : ∀ alt' ∈ pre, ¬ Feasible alts path alt'.2) {r : Option β}
    (h : firstOf f g (pre ++ alt :: post) = some r) : ∃ r', allOf f alt.2 = some r' := by
  induction pre with
  | nil =>
    obtain ⟨r', hr', _⟩ := bind_inv h
    exact ⟨r', hr'⟩
  | cons alt' pre ih =>
    obtain ⟨r', hr', h⟩ := bind_inv h
    cases r' with
    | none => exact ih (fun a ha => hpre a (.tail _ ha)) h
    | some bs => exact absurd ((allOf_answer hf hr').1 rfl) (hpre alt' (.head _))

end Ends

lemma ends_of_tried {k : Nat} {s s' : List α × α} (htried : Tried alts s' s)
    (h : search alts build (k + 1) s.1 s.2 = some r) :
    ∃ r', search alts build k s'.1 s'.2 = some r' := by
  obtain ⟨hnot, hpath, pre, alt, post, xs, ys, halts, hpre, halt, hxs⟩ := htried
  unfold search at h
  rw [if_neg hnot, halts, ← hpath] at h
  obtain ⟨r', hr'⟩ := ends_of_firstOf (search_answer k s'.1) hpre h
  rw [halt] at hr'
  exact ends_of_allOf (search_answer k s'.1) hxs hr'

lemma exists_allOf {path : List α}
    (h : ∀ xs a ys, items = xs ++ .inr a :: ys → Feasible alts path xs →
      ∃ k r, search alts build k path a = some r) :
    ∃ k r, allOf (search alts build k path) items = some r := by
  induction items with
  | nil => exact ⟨0, _, rfl⟩
  | cons item items ih =>
    cases item with
    | inl b =>
      obtain ⟨k, r, hr⟩ := ih fun xs a ys heq hxs => by
        refine h (.inl b :: xs) a ys (by rw [heq]; rfl) fun a' ha' => ?_
        cases ha' with
        | tail _ ha' => exact hxs a' ha'
      refine ⟨k, r.map (b :: ·), ?_⟩
      rw [allOf, hr]
      rfl
    | inr a =>
      obtain ⟨k, r, hr⟩ := h [] a items rfl fun b hb => absurd hb not_mem_nil
      cases r with
      | none =>
        refine ⟨k, none, ?_⟩
        rw [allOf, hr]
        rfl
      | some b =>
        have hd : Deriv alts path a := (search_answer k path a _ hr).1 rfl
        obtain ⟨k', r', hr'⟩ := ih fun xs a' ys heq hxs => by
          refine h (.inr a :: xs) a' ys (by rw [heq]; rfl) fun a'' ha'' => ?_
          cases ha'' with
          | head => exact hd
          | tail _ ha'' => exact hxs a'' ha''
        refine ⟨max k k', r'.map (b :: ·), ?_⟩
        rw [allOf, search_mono (Nat.le_max_left k k') hr]
        change (allOf (search alts build (max k k') path) items).map _ = _
        rw [allOf_mono (fun _ _ => search_mono (Nat.le_max_right k k')) hr']
        rfl

lemma ends_iff_acc {path : List α} :
    (∃ k r, search alts build k path a = some r) ↔ Acc (Tried alts) (path, a) := by
  constructor
  · rintro ⟨k, r, h⟩
    induction k generalizing path a r with
    | zero => cases h
    | succ k ih =>
      refine ⟨_, fun s' htried => ?_⟩
      obtain ⟨r', hr'⟩ := ends_of_tried htried h
      exact ih _ hr'
  intro h
  generalize hs : (path, a) = s at h
  induction h generalizing path a with
  | intro s _ ih =>
    subst hs
    by_cases hpath : a ∈ path
    · refine ⟨1, none, ?_⟩
      unfold search
      rw [if_pos hpath]
    have hfirst : ∀ pre rest, alts a = pre ++ rest →
        (∀ alt' ∈ pre, ¬ Feasible alts (a :: path) alt'.2) →
        ∃ k r, firstOf (search alts build k (a :: path)) (build a) rest = some r := by
      intro pre rest
      induction rest generalizing pre with
      | nil => exact fun _ _ => ⟨0, none, rfl⟩
      | cons alt rest ihrest =>
        intro halts hpre
        obtain ⟨k, r, hr⟩ : ∃ k r, allOf (search alts build k (a :: path)) alt.2 = some r :=
          exists_allOf fun xs b ys heq hxs => ih (a :: path, b)
            ⟨hpath, rfl, pre, alt, rest, xs, ys, halts, hpre, heq, hxs⟩ rfl
        cases r with
        | some bs =>
          refine ⟨k, some (build a alt.1 bs), ?_⟩
          rw [firstOf, hr]
          rfl
        | none =>
          have hpre' : ∀ alt' ∈ pre ++ [alt], ¬ Feasible alts (a :: path) alt'.2 := by
            intro alt' halt'
            cases List.mem_append.1 halt' with
            | inl halt' => exact hpre alt' halt'
            | inr halt' =>
              rw [List.mem_singleton.1 halt']
              intro hfeas
              exact Bool.false_ne_true ((allOf_answer (search_answer k (a :: path)) hr).2 hfeas)
          have halts' : alts a = (pre ++ [alt]) ++ rest := by
            rw [halts, List.append_assoc]
            rfl
          obtain ⟨k', r', hr'⟩ := ihrest (pre ++ [alt]) halts' hpre'
          refine ⟨max k k', r', ?_⟩
          rw [firstOf, allOf_mono (fun _ _ => search_mono (Nat.le_max_left k k')) hr]
          exact firstOf_mono (fun _ _ => search_mono (Nat.le_max_right k k')) hr'
    obtain ⟨k, r, hr⟩ := hfirst [] (alts a) rfl fun _ h => absurd h not_mem_nil
    refine ⟨k + 1, r, ?_⟩
    unfold search
    rw [if_neg hpath]
    exact hr

lemma acc_of_finite (S : Finset α)
    (hS : ∀ a ∈ S, ∀ alt ∈ alts a, ∀ b, .inr b ∈ alt.2 → b ∈ S) {path : List α} {a : α}
    (ha : a ∈ S) (hpath : ∀ p ∈ path, p ∈ S) (hnodup : path.Nodup) :
    Acc (Tried alts) (path, a) := by
  obtain ⟨n, hn⟩ : ∃ n, S.card ≤ n + path.length := ⟨S.card, Nat.le_add_right _ _⟩
  induction n generalizing path a with
  | zero =>
    refine ⟨_, fun s' htried => absurd ?_ htried.1⟩
    have hsub : path.toFinset ⊆ S := fun p hp => hpath p (List.mem_toFinset.1 hp)
    have heq : path.toFinset = S := by
      refine Finset.eq_of_subset_of_card_le hsub ?_
      rw [List.toFinset_card_of_nodup hnodup]
      omega
    exact List.mem_toFinset.1 (heq ▸ ha)
  | succ n ih =>
    refine ⟨_, fun s' htried => ?_⟩
    obtain ⟨path', b⟩ := s'
    obtain ⟨hnot, heq, pre, alt, post, xs, ys, halts, _, halt, _⟩ := htried
    have hpath' : path' = a :: path := heq
    subst hpath'
    refine ih ?_ ?_ (List.nodup_cons.2 ⟨hnot, hnodup⟩) ?_
    · refine hS a ha alt ?_ b ?_
      · rw [halts]
        exact List.mem_append_right pre (.head _)
      · rw [halt]
        exact List.mem_append_right xs (.head _)
    · intro p hp
      cases hp with
      | head => exact ha
      | tail _ hp => exact hpath p hp
    · rw [List.length_cons]
      omega

end EthosCpc.Library.CutSearch
