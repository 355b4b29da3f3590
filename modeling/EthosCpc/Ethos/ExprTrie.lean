import EthosCpc.Library.Trie

/-!
# The expression trie

`ExprTrie` of `expr_trie.h`: the index that the checker keeps of all terms
of one kind.  The keys are the pointers of a term's children and the datum
is the pointer of the term.

`remove` walks down to the node of its key and remembers a candidate for
pruning: the child to erase, `d_etd` with `d_itetd`.  The candidate is set at
the first node after the last one with several children.  Nothing on the walk
looks at the data it passes, nor at the children of the last node, so pruning
can take data of other keys along.  `remove_keeps_iff` says when it does not.
-/

namespace EthosCpc

open Library

/-- The address of an `ExprValue`. -/
abbrev Ptr := Nat

abbrev ExprTrie := Trie Ptr Ptr

namespace ExprTrie

/-- The loop of `ExprTrie::remove`, from the node `et` that stands at `pos`.
The candidate `etd` is kept as the path of the child that would be erased.
`none` is the assertion that a child exists. -/
def removeLoop (et : ExprTrie) (pos : List Ptr) (etd : Option (List Ptr)) :
    List Ptr → Option (Option (List Ptr))
  | [] => some etd
  | e :: es =>
    match et.child e with
    | none => none
    | some c =>
      let etd := if etd = none then some (pos ++ [e]) else etd
      let etd := if et.children.length > 1 then none else etd
      removeLoop c (pos ++ [e]) etd es

/-- What `ExprTrie::remove` does after the loop.  When a child is erased, the
last assignment of the source, `et->d_data = nullptr`, is made in the erased
subtree. -/
def prune (t : ExprTrie) (ks : List Ptr) : Option (List Ptr) → ExprTrie
  | some p => t.erase p
  | none => t.update none ks

def remove (t : ExprTrie) (ks : List Ptr) : Option ExprTrie :=
  (removeLoop t [] none ks).map (prune t ks)

/-! ## What the walk finds -/

/-- The node that stands `i` steps down the path `ks` has several children. -/
def branches (t : ExprTrie) (ks : List Ptr) (i : Nat) : Bool :=
  (t.find (ks.take i)).any fun n => decide (n.children.length > 1)

lemma branches_zero (t : ExprTrie) (ks : List Ptr) :
    branches t ks 0 = decide (t.children.length > 1) := rfl

lemma branches_succ {t c : ExprTrie} {e : Ptr} (hc : t.child e = some c) (es : List Ptr)
    (i : Nat) : branches t (e :: es) (i + 1) = branches c es i := by
  rw [branches, List.take_succ_cons, Trie.find_cons, hc]
  rfl

lemma exists_removeLoop {t n : ExprTrie} {ks : List Ptr} (h : t.find ks = some n)
    (pos : List Ptr) (etd : Option (List Ptr)) : ∃ r, removeLoop t pos etd ks = some r := by
  induction ks generalizing t pos etd with
  | nil => exact ⟨etd, rfl⟩
  | cons e es ih =>
    obtain ⟨c, hc, hn⟩ := bind_inv h
    rw [removeLoop, hc]
    exact ih hn _ _

lemma removeLoop_cons {t : ExprTrie} {e : Ptr} {es pos : List Ptr} {etd r : Option (List Ptr)}
    (h : removeLoop t pos etd (e :: es) = some r) :
    ∃ c etd', t.child e = some c ∧ removeLoop c (pos ++ [e]) etd' es = some r ∧
      ((branches t (e :: es) 0 = true ∧ etd' = none) ∨
       (branches t (e :: es) 0 = false ∧ etd' = some (etd.getD (pos ++ [e])))) := by
  rw [removeLoop] at h
  cases hc : t.child e with
  | none => simp [hc] at h
  | some c =>
    simp only [hc] at h
    refine ⟨c, _, rfl, h, ?_⟩
    rw [branches_zero]
    by_cases hb : t.children.length > 1
    · exact .inl ⟨decide_eq_true hb, if_pos hb⟩
    refine .inr ⟨decide_eq_false hb, ?_⟩
    rw [if_neg hb]
    cases etd <;> rfl

/-- The candidate is the one the walk started with or lies further down. -/
lemma removeLoop_path {t : ExprTrie} {ks pos : List Ptr} {etd : Option (List Ptr)}
    {p : List Ptr} (h : removeLoop t pos etd ks = some (some p)) :
    etd = some p ∨ (pos.length < p.length ∧ p <+: pos ++ ks) := by
  induction ks generalizing t pos etd with
  | nil => exact .inl (Option.some.inj h)
  | cons e es ih =>
    obtain ⟨c, etd', _, hc, hetd⟩ := removeLoop_cons h
    have happ : pos ++ e :: es = pos ++ [e] ++ es := by rw [List.append_cons]
    rcases ih hc with hp | ⟨hlen, hp⟩
    · rcases hetd with ⟨-, hnone⟩ | ⟨-, hsome⟩
      · rw [hnone] at hp
        contradiction
      · rw [hsome, Option.some.injEq] at hp
        cases etd with
        | some q => exact .inl (congrArg some hp)
        | none =>
          right
          rw [← hp, Option.getD_none, happ]
          exact ⟨by simp, List.prefix_append _ _⟩
    right
    rw [happ]
    refine ⟨?_, hp⟩
    rw [List.length_append] at hlen
    omega

/-- The candidate reaches above the first `m` steps exactly if no node from
the last of these steps on has several children. -/
lemma removeLoop_spec {t : ExprTrie} {ks pos : List Ptr} {etd r : Option (List Ptr)}
    (h : removeLoop t pos etd ks = some r) (hetd : ∀ q, etd = some q → q <+: pos) {m : Nat}
    (hm : m ≤ ks.length) :
    (∃ p, r = some p ∧ p <+: pos ++ ks.take m) ↔
      (m = 0 → etd ≠ none) ∧ ∀ i < ks.length, m ≤ i + 1 → branches t ks i = false := by
  induction ks generalizing t pos etd m with
  | nil =>
    obtain rfl : m = 0 := by simpa using hm
    obtain rfl : etd = r := Option.some.inj h
    simp only [List.take_nil, List.append_nil, List.length_nil, true_implies]
    constructor
    · rintro ⟨p, rfl, -⟩
      exact ⟨by simp, by simp⟩
    rintro ⟨hne, -⟩
    obtain ⟨q, rfl⟩ := Option.ne_none_iff_exists'.1 hne
    exact ⟨q, rfl, hetd q rfl⟩
  | cons e es ih =>
    obtain ⟨c, etd', hchild, hc, hcase⟩ := removeLoop_cons h
    have hetd' : ∀ q, etd' = some q → q <+: pos ++ [e] := by
      intro q hq
      rcases hcase with ⟨-, hnone⟩ | ⟨-, hsome⟩
      · rw [hnone] at hq
        contradiction
      rw [hsome, Option.some.injEq] at hq
      cases etd with
      | none => exact ⟨[], by rw [← hq]; simp⟩
      | some q' =>
        obtain rfl : q' = q := hq
        exact (hetd q' rfl).trans (List.prefix_append _ _)
    have hnone : etd' ≠ none ↔ branches t (e :: es) 0 = false := by
      rcases hcase with ⟨hb, hnone⟩ | ⟨hb, hsome⟩
      · simp [hb, hnone]
      · simp [hb, hsome]
    -- the steps of the walk below `e`
    have hbelow : ∀ m', (∀ i < (e :: es).length, m' + 1 ≤ i + 1 → branches t (e :: es) i = false) ↔
        (m' = 0 → etd' ≠ none) ∧ ∀ i < es.length, m' ≤ i + 1 → branches c es i = false := by
      intro m'
      rw [hnone]
      constructor
      · intro hall
        refine ⟨fun hm0 => hall 0 (by simp) (by omega), fun i hi hle => ?_⟩
        rw [← branches_succ hchild]
        exact hall (i + 1) (by simpa using hi) (by omega)
      rintro ⟨hzero, hsucc⟩ i hi hle
      cases i with
      | zero => exact hzero (by omega)
      | succ i =>
        rw [branches_succ hchild]
        exact hsucc i (by simpa using hi) (by omega)
    cases m with
    | succ m' =>
      have htake : pos ++ (e :: es).take (m' + 1) = pos ++ [e] ++ es.take m' := by simp
      rw [htake, ih hc hetd' (by simpa using hm), ← hbelow m']
      simp
    | zero =>
      have hih := ih hc hetd' (Nat.zero_le _)
      have hbelow0 := hbelow 0
      rw [List.take_zero, List.append_nil] at hih ⊢
      simp only [true_implies, Nat.zero_add, Nat.le_add_left] at hih hbelow0 ⊢
      constructor
      · rintro ⟨p, rfl, hp⟩
        have hne : etd = some p := by
          rcases removeLoop_path h with hq | ⟨hlen, -⟩
          · exact hq
          · have := hp.length_le
            omega
        refine ⟨by simp [hne], ?_⟩
        exact hbelow0.2 (hih.1 ⟨p, rfl, hp.trans (List.prefix_append _ _)⟩)
      rintro ⟨hne, hall⟩
      obtain ⟨q, rfl⟩ := Option.ne_none_iff_exists'.1 hne
      obtain ⟨p, rfl, hp⟩ := hih.2 (hbelow0.1 hall)
      refine ⟨p, rfl, ?_⟩
      rcases removeLoop_path hc with hq | ⟨hlen, -⟩
      · have hb := hnone.1 (by rw [hq]; simp)
        rcases hcase with ⟨hb', -⟩ | ⟨-, hsome⟩
        · rw [hb] at hb'
          contradiction
        rw [hsome, Option.getD_some, Option.some.injEq] at hq
        rw [← hq]
        exact hetd q rfl
      · have := hp.length_le
        omega

/-! ## When removal is confined to its key -/

/-- A key with data that starts like `ks`, or continues it, is kept apart from
it: some node on the path of `ks`, from the last node before the shorter of
the two keys ends, has several children. -/
def KeptApart (t : ExprTrie) (ks ks' : List Ptr) : Prop :=
  ∃ i < ks.length, min ks.length ks'.length ≤ i + 1 ∧ branches t ks i = true

/-- Every other key with data that is a non-empty part or a continuation of
`ks` is kept apart from `ks`. -/
def RemoveSafe (t : ExprTrie) (ks : List Ptr) : Prop :=
  ∀ ks', ks' ≠ ks → t.lookup ks' ≠ none → 0 < min ks.length ks'.length →
    (ks' <+: ks ∨ ks <+: ks') → KeptApart t ks ks'

/-- Lists that do not continue one another part at some element. -/
private lemma exists_split_of_not_prefix {ks ks' : List Ptr} (h : ¬ ks <+: ks')
    (h' : ¬ ks' <+: ks) : ∃ c a b r r', a ≠ b ∧ ks = c ++ a :: r ∧ ks' = c ++ b :: r' := by
  induction ks generalizing ks' with
  | nil => exact absurd List.nil_prefix h
  | cons x ks ih =>
    cases ks' with
    | nil => exact absurd List.nil_prefix h'
    | cons y ks' =>
      by_cases hxy : x = y
      · subst hxy
        rw [List.cons_prefix_cons, not_and] at h h'
        obtain ⟨c, a, b, r, r', hab, rfl, rfl⟩ := ih (h rfl) (h' rfl)
        exact ⟨x :: c, a, b, r, r', hab, rfl, rfl⟩
      · exact ⟨[], x, y, ks, ks', hxy, rfl, rfl⟩

/-- The node where two paths of the trie part has several children. -/
private lemma branches_of_split {t n n' : ExprTrie} {c r r' : List Ptr} {a b : Ptr}
    (hab : a ≠ b) (h : t.find (c ++ a :: r) = some n) (h' : t.find (c ++ b :: r') = some n') :
    branches t (c ++ a :: r) c.length = true := by
  rw [Trie.find_append] at h h'
  obtain ⟨m, hm, h⟩ := bind_inv h
  rw [hm, Option.bind_some] at h'
  obtain ⟨d, hd, _⟩ := bind_inv h
  obtain ⟨d', hd', _⟩ := bind_inv h'
  rw [branches, List.take_left, hm, Option.any_some, decide_eq_true_eq]
  exact one_lt_length_of_lookup hab hd hd'

section Remove

variable {t n : ExprTrie} {ks ks' : List Ptr} {r : Option (List Ptr)}

lemma path_of_removeLoop (hr : removeLoop t [] none ks = some r) {p : List Ptr}
    (hp : r = some p) : p ≠ [] ∧ p <+: ks := by
  subst hp
  rcases removeLoop_path hr with h | ⟨hlen, hpre⟩
  · contradiction
  · exact ⟨List.ne_nil_of_length_pos hlen, by simpa using hpre⟩

lemma lookup_prune_self (hr : removeLoop t [] none ks = some r) :
    (prune t ks r).lookup ks = none := by
  cases r with
  | none => rw [prune, Trie.lookup_update, if_pos rfl]
  | some p =>
    obtain ⟨hne, hpre⟩ := path_of_removeLoop hr rfl
    rw [prune, Trie.lookup_erase hne, if_pos hpre]

lemma lookup_prune_eq_iff (hr : removeLoop t [] none ks = some r) (hne : ks' ≠ ks) :
    (prune t ks r).lookup ks' = t.lookup ks' ↔
      (t.lookup ks' ≠ none → ¬ ∃ p, r = some p ∧ p <+: ks') := by
  cases r with
  | none => simp [prune, Trie.lookup_update, hne]
  | some p =>
    rw [prune, Trie.lookup_erase (path_of_removeLoop hr rfl).1]
    by_cases hpre : p <+: ks'
    · simp [hpre, eq_comm]
    · simp [hpre]

lemma lookup_of_remove {t' : ExprTrie} (h : remove t ks = some t') {d : Ptr}
    (hd : t'.lookup ks' = some d) : t.lookup ks' = some d := by
  obtain ⟨r, hr, rfl⟩ := map_inv h
  cases r with
  | none =>
    rw [prune, Trie.lookup_update] at hd
    split at hd
    · cases hd
    · exact hd
  | some p =>
    rw [prune, Trie.lookup_erase (path_of_removeLoop hr rfl).1] at hd
    split at hd
    · cases hd
    · exact hd

/-- A pruned path that reaches another key with data is the one of a key that
is not kept apart. -/
lemma erased_iff (hn : t.find ks = some n) (hr : removeLoop t [] none ks = some r)
    (hne : ks' ≠ ks) (hdata : t.lookup ks' ≠ none) :
    (∃ p, r = some p ∧ p <+: ks') ↔
      0 < min ks.length ks'.length ∧ (ks' <+: ks ∨ ks <+: ks') ∧ ¬ KeptApart t ks ks' := by
  have hpath : ∀ p, r = some p → p ≠ [] ∧ p <+: ks := fun p hp => path_of_removeLoop hr hp
  have hspec : ∀ m ≤ ks.length, (∃ p, r = some p ∧ p <+: ks.take m) ↔
      0 < m ∧ ∀ i < ks.length, m ≤ i + 1 → branches t ks i = false := by
    intro m hm
    have h := removeLoop_spec hr (by simp) hm
    rw [List.nil_append] at h
    rw [h, Nat.pos_iff_ne_zero]
    simp
  have happart : (∀ i < ks.length, min ks.length ks'.length ≤ i + 1 → branches t ks i = false) ↔
      ¬ KeptApart t ks ks' := by
    simp only [KeptApart, not_exists, not_and, Bool.not_eq_true]
  by_cases hpre : ks' <+: ks
  · -- an initial part of `ks`
    have hlen := hpre.length_le
    have hmin : min ks.length ks'.length = ks'.length := Nat.min_eq_right hlen
    have htake : ks' = ks.take ks'.length := List.prefix_iff_eq_take.1 hpre
    have h := hspec ks'.length hlen
    rw [← htake] at h
    rw [h, ← happart, hmin]
    simp [hpre]
  by_cases hext : ks <+: ks'
  · -- a continuation of `ks`
    have hlen := hext.length_le
    have hmin : min ks.length ks'.length = ks.length := Nat.min_eq_left hlen
    have h := hspec ks.length (le_refl _)
    rw [List.take_length] at h
    rw [← happart, hmin]
    simp only [hext, or_true, true_and]
    rw [← h]
    constructor
    · rintro ⟨p, hp, -⟩
      exact ⟨p, hp, (hpath p hp).2⟩
    · rintro ⟨p, hp, hpks⟩
      exact ⟨p, hp, hpks.trans hext⟩
  -- the paths part, at a node with several children
  simp only [hpre, hext, or_self, false_and, and_false, iff_false, not_exists, not_and]
  intro p hp hpks'
  obtain ⟨d, hd⟩ := Option.ne_none_iff_exists'.1 hdata
  obtain ⟨n', hn'⟩ := Trie.isSome_find_of_lookup hd
  obtain ⟨c, a, b, q, q', hab, rfl, rfl⟩ := exists_split_of_not_prefix hext hpre
  have hb := branches_of_split hab hn hn'
  have hpc : p <+: c := by
    rcases List.prefix_or_prefix_of_prefix (hpath p hp).2 (List.prefix_append c (a :: q)) with
      h | ⟨u, rfl⟩
    · exact h
    cases u with
    | nil => exact ⟨[], by simp⟩
    | cons x u =>
      have hpa := (hpath _ hp).2
      rw [List.prefix_append_right_inj, List.cons_prefix_cons] at hpa hpks'
      exact absurd (hpa.1.symm.trans hpks'.1) hab
  have hlen : c.length ≤ (c ++ a :: q).length := by simp
  have h := (hspec c.length hlen).1 ⟨p, hp, by simpa using hpc⟩
  have hfalse := h.2 c.length (by simp) (by omega)
  rw [hb] at hfalse
  contradiction

/-- Removal takes the data of its key away, and nothing else exactly if the
key is safe to remove. -/
lemma remove_spec (hn : t.find ks = some n) : ∃ t', remove t ks = some t' ∧ t'.lookup ks = none ∧
      ((∀ ks', ks' ≠ ks → t'.lookup ks' = t.lookup ks') ↔ RemoveSafe t ks) := by
  obtain ⟨r, hr⟩ := exists_removeLoop hn [] none
  refine ⟨prune t ks r, by rw [remove, hr, Option.map_some], lookup_prune_self hr, ?_⟩
  constructor
  · intro hall ks' hne hdata hpos hcomp
    by_contra hapart
    have herased := (erased_iff hn hr hne hdata).2 ⟨hpos, hcomp, hapart⟩
    exact (lookup_prune_eq_iff hr hne).1 (hall ks' hne) hdata herased
  intro hsafe ks' hne
  rw [lookup_prune_eq_iff hr hne]
  intro hdata herased
  obtain ⟨hpos, hcomp, hapart⟩ := (erased_iff hn hr hne hdata).1 herased
  exact hapart (hsafe ks' hne hdata hpos hcomp)

end Remove

end ExprTrie

end EthosCpc
