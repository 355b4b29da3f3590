import EthosCpc.Cvc5.ProofNodeAlgorithm
import EthosCpc.Library.Inversion

/-!
# When `containsAssumption` is right

The flag of the traversal is assigned, not accumulated: an allowed assumption
that is visited after one that is not allowed clears it.  A waiting node below
which the latter stands then gets the answer `false`, unless a sibling sets the
flag again.  This is the only way to a wrong answer (`exact_iff_restored`).

The proof follows the traversal.  The part that deals with one node either
meets a round that loses the flag for good and leaves a wrong entry, or it is
right about everything; the children of a waiting node have a third outcome,
where the flag is lost and the node itself is about to get the wrong entry.
-/

namespace EthosCpc.Cvc5.ProofNodes

open Library
open Library.Loop (Reaches Runs)
open Relation
open Option (some.inj)
open Function (update update_of_ne update_self)

variable {F : Type} {pf : Proofs F} {allowed : List F} {c c' : Traversal} {n r : Nat}
  {cs rest : List Nat}

/-! ## Assumptions below a node -/

lemma contains_leaf (h : (pf.node n).rule = .assume) :
    Contains pf allowed n ↔ (pf.node n).assumed ∉ allowed := by
  constructor
  · intro hn
    obtain ⟨m, hreach, hm⟩ := hn
    cases ReflTransGen.cases_head hreach with
    | inl heq => exact heq ▸ hm.2
    | inr hnext =>
      obtain ⟨k, hk, _⟩ := hnext
      rw [pf.leaf n h] at hk
      cases hk
  · intro hn
    exact ⟨n, .refl, h, hn⟩

lemma contains_inner (h : (pf.node n).rule ≠ .assume) :
    Contains pf allowed n ↔ ∃ m ∈ (pf.node n).children, Contains pf allowed m := by
  constructor
  · intro hn
    obtain ⟨m, hreach, hm⟩ := hn
    cases ReflTransGen.cases_head hreach with
    | inl heq => exact absurd (heq ▸ hm.1) h
    | inr hnext =>
      obtain ⟨k, hk, hrest⟩ := hnext
      exact ⟨k, hk, m, hrest, hm⟩
  · intro hn
    obtain ⟨k, hk, m, hreach, hm⟩ := hn
    exact ⟨m, .head hk hreach, hm⟩

/-! ## The rounds of the loop -/

section Rounds

variable (pf allowed) [DecidableEq F] (hv : c.visit = n :: rest)

include hv

lemma step_cached {b : Bool} (hb : c.caMap n = some b) : step pf allowed c = some { c with
      visit := rest, foundAssumption := if b then true else c.foundAssumption, cur := n } := by
  rw [step, hv]
  simp only [visitNode, hb]

lemma step_leaf (hnone : c.caMap n = none) (hfresh : c.visited n = none)
    (hrule : (pf.node n).rule = .assume) :
    step pf allowed c = some { c with
      visited := update c.visited n (some (decide ((pf.node n).assumed ∉ allowed)))
      visit := rest
      caMap := update c.caMap n (some (decide ((pf.node n).assumed ∉ allowed)))
      foundAssumption := decide ((pf.node n).assumed ∉ allowed)
      cur := n } := by
  rw [step, hv]
  simp only [visitNode, hnone, hfresh, if_pos hrule]

lemma step_expand (hnone : c.caMap n = none) (hfresh : c.visited n = none)
    (hrule : (pf.node n).rule ≠ .assume) (hfound : c.foundAssumption = false) :
    step pf allowed c = some { c with
      visited := update c.visited n (some false)
      visit := (pf.node n).children.reverse ++ n :: rest
      cur := n } := by
  rw [step, hv]
  simp only [visitNode, hnone, hfresh, if_neg hrule, if_pos hfound]

lemma step_skip (hnone : c.caMap n = none) (hfresh : c.visited n = none)
    (hrule : (pf.node n).rule ≠ .assume) (hfound : c.foundAssumption = true) :
    step pf allowed c = some { c with visit := rest, cur := n } := by
  have hset : ¬ c.foundAssumption = false := by
    rw [hfound]
    decide
  rw [step, hv]
  simp only [visitNode, hnone, hfresh, if_neg hrule, if_neg hset]

lemma step_done (hp : Pending c n) : step pf allowed c = some { c with
      visited := update c.visited n (some true)
      visit := rest
      caMap := update c.caMap n (some c.foundAssumption)
      cur := n } := by
  rw [step, hv]
  simp only [visitNode, hp.1, hp.2]

end Rounds

/-! ## What a part of the traversal does -/

/-- Nodes of a rank below `r` wait for no children. -/
def CleanBelow (pf : Proofs F) (c : Traversal) (r : Nat) : Prop :=
  ∀ m, pf.rank m < r → c.caMap m = none → c.visited m = none

/-- The positive answers of the cache are right. -/
def TrueOk (pf : Proofs F) (allowed : List F) (c : Traversal) : Prop :=
  ∀ m, c.caMap m = some true → Contains pf allowed m

/-- The negative ones are. -/
def FalseOk (pf : Proofs F) (allowed : List F) (c : Traversal) : Prop :=
  ∀ m, c.caMap m = some false → ¬ Contains pf allowed m

/-- A negative answer is wrong. -/
def Wrong (pf : Proofs F) (allowed : List F) (c : Traversal) : Prop :=
  ∃ m, c.caMap m = some false ∧ Contains pf allowed m

lemma Wrong.of_ext (h : Wrong pf allowed c) (hext : ∀ m b, c.caMap m = some b → c'.caMap m = some b) :
    Wrong pf allowed c' := by
  obtain ⟨m, hm, hcontains⟩ := h
  exact ⟨m, hext m false hm, hcontains⟩

lemma restored_of_not_clears (h : ¬ Clears pf allowed c) : Restored pf allowed c :=
  fun hclears => absurd hclears h

variable [DecidableEq F]

/-- Some round loses the flag for good. -/
def Loses (pf : Proofs F) (allowed : List F) (c : Traversal) : Prop :=
  ∃ d, Reaches (step pf allowed) c d ∧ ¬ Restored pf allowed d

/-- From `c` to `c'` the nodes above `rest` are dealt with, all of a rank below `r`. -/
structure After (pf : Proofs F) (allowed : List F) (c c' : Traversal) (rest : List Nat) (r : Nat) :
    Prop where
  visit : c'.visit = rest
  reaches : Reaches (step pf allowed) c c'
  ext : ∀ m b, c.caMap m = some b → c'.caMap m = some b
  above : ∀ m, r ≤ pf.rank m → c'.caMap m = c.caMap m ∧ c'.visited m = c.visited m
  clean : CleanBelow pf c' r
  trueOk : TrueOk pf allowed c'

lemma Loses.of_reaches (h : Loses pf allowed c') (hr : Reaches (step pf allowed) c c') :
    Loses pf allowed c := by
  obtain ⟨d, hd, hlost⟩ := h
  exact ⟨d, hr.trans hd, hlost⟩

lemma After.trans {c'' : Traversal} {r' : Nat} {rest' : List Nat}
    (h : After pf allowed c c' rest r') (h' : After pf allowed c' c'' rest' r) (hr : r' ≤ r) :
    After pf allowed c c'' rest' r where
  visit := h'.visit
  reaches := h.reaches.trans h'.reaches
  ext m b hm := h'.ext m b (h.ext m b hm)
  above m hm := by
    obtain ⟨hca, hvis⟩ := h.above m (Nat.le_trans hr hm)
    obtain ⟨hca', hvis'⟩ := h'.above m hm
    exact ⟨hca'.trans hca, hvis'.trans hvis⟩
  clean := h'.clean
  trueOk := h'.trueOk

lemma After.cleanBelow {r' : Nat} (h : After pf allowed c c' rest r') (hc : CleanBelow pf c r) :
    CleanBelow pf c' r := by
  intro m hm hnone
  by_cases hlt : pf.rank m < r'
  · exact h.clean m hlt hnone
  obtain ⟨hca, hvis⟩ := h.above m (Nat.le_of_not_lt hlt)
  rw [hca] at hnone
  rw [hvis]
  exact hc m hm hnone

/-- What the part of the traversal that deals with one node has done. -/
structure NodeDone (pf : Proofs F) (allowed : List F) (c c' : Traversal) (n : Nat)
    (rest : List Nat) : Prop where
  after : After pf allowed c c' rest (pf.rank n + 1)
  cur : c'.cur = n
  entry : c.foundAssumption = false → c'.caMap n = some c'.foundAssumption
  sound : c'.foundAssumption = true → c.foundAssumption = true ∨ Contains pf allowed n
  verdict : FalseOk pf allowed c → (Loses pf allowed c ∧ Wrong pf allowed c') ∨
    (Runs (step pf allowed) (Restored pf allowed) c c' ∧ FalseOk pf allowed c' ∧
      (c.foundAssumption = true ∨ Contains pf allowed n → c'.foundAssumption = true))

/-- The same for the children of a waiting node. -/
structure ListDone (pf : Proofs F) (allowed : List F) (c c' : Traversal) (cs rest : List Nat)
    (r : Nat) : Prop where
  after : After pf allowed c c' rest r
  sound : c'.foundAssumption = true → c.foundAssumption = true ∨ ∃ x ∈ cs, Contains pf allowed x
  verdict : FalseOk pf allowed c → (Loses pf allowed c ∧ Wrong pf allowed c') ∨
    (Loses pf allowed c ∧ c'.foundAssumption = false ∧
      (c.foundAssumption = true ∨ ∃ x ∈ cs, Contains pf allowed x)) ∨
    (Runs (step pf allowed) (Restored pf allowed) c c' ∧ FalseOk pf allowed c' ∧
      (c.foundAssumption = true ∨ (∃ x ∈ cs, Contains pf allowed x) → c'.foundAssumption = true))

/-! ## One node -/

section Node

variable (hv : c.visit = n :: rest) (hclean : CleanBelow pf c (pf.rank n + 1))
  (htrue : TrueOk pf allowed c) (hclears : ¬ Clears pf allowed c)

include hv hclean htrue hclears

lemma nodeDone_cached {b : Bool} (hb : c.caMap n = some b) :
    ∃ c', NodeDone pf allowed c c' n rest := by
  have hstep := step_cached pf allowed hv hb
  refine ⟨_, ⟨rfl, .single hstep, fun m b hm => hm, fun m _ => ⟨rfl, rfl⟩, hclean, htrue⟩, rfl,
    ?_, ?_, ?_⟩
  · intro hfound
    cases b with
    | false => exact hb.trans (congrArg some hfound.symm)
    | true => exact hb
  · intro hfound
    cases b with
    | false => exact .inl hfound
    | true => exact .inr (htrue n hb)
  intro hfalse
  refine .inr ⟨.single hstep (restored_of_not_clears hclears), hfalse, fun h => ?_⟩
  cases b with
  | false => exact h.resolve_right (hfalse n hb)
  | true => rfl

lemma nodeDone_leaf (hnone : c.caMap n = none) (hrule : (pf.node n).rule = .assume) :
    ∃ c', NodeDone pf allowed c c' n rest := by
  have hfresh := hclean n (Nat.lt_succ_self _) hnone
  have hstep := step_leaf pf allowed hv hnone hfresh hrule
  have hleaf : (pf.node n).assumed ∈ allowed → c.foundAssumption = false := by
    intro hmem
    rw [← Bool.not_eq_true]
    exact fun hfound => hclears ⟨n, rest, hv, hnone, hfresh, hrule, hmem, hfound⟩
  have hother : ∀ m, m ≠ n → ∀ b : Bool, update c.caMap n (some b) m = c.caMap m :=
    fun m hm b => update_of_ne hm (some b) c.caMap
  refine ⟨_, ⟨rfl, .single hstep, ?_, ?_, ?_, ?_⟩, rfl, ?_, ?_, ?_⟩
  · intro m b hm
    have hne : m ≠ n := by
      rintro rfl
      rw [hnone] at hm
      cases hm
    exact (hother m hne _).trans hm
  · intro m hm
    have hne : m ≠ n := by
      rintro rfl
      exact absurd hm (Nat.not_succ_le_self _)
    exact ⟨hother m hne _, update_of_ne hne _ _⟩
  · intro m hm hnone'
    by_cases hne : m = n
    · subst hne
      cases (update_self m _ c.caMap).symm.trans hnone'
    · exact (update_of_ne hne _ _).trans (hclean m hm ((hother m hne _).symm.trans hnone'))
  · intro m hm
    by_cases hne : m = n
    · subst hne
      have hret := some.inj ((update_self m _ c.caMap).symm.trans hm)
      exact (contains_leaf hrule).2 (of_decide_eq_true hret)
    · exact htrue m ((hother m hne _).symm.trans hm)
  · exact fun _ => update_self n _ c.caMap
  · exact fun hfound => .inr ((contains_leaf hrule).2 (of_decide_eq_true hfound))
  intro hfalse
  refine .inr ⟨.single hstep (restored_of_not_clears hclears), ?_, ?_⟩
  · intro m hm
    by_cases hne : m = n
    · subst hne
      have hret := some.inj ((update_self m _ c.caMap).symm.trans hm)
      exact fun hcontains => of_decide_eq_false hret ((contains_leaf hrule).1 hcontains)
    · exact hfalse m ((hother m hne _).symm.trans hm)
  intro h
  apply decide_eq_true
  cases h with
  | inl hfound =>
    intro hmem
    rw [hleaf hmem] at hfound
    cases hfound
  | inr hcontains => exact (contains_leaf hrule).1 hcontains

lemma nodeDone_skip (hnone : c.caMap n = none) (hrule : (pf.node n).rule ≠ .assume)
    (hfound : c.foundAssumption = true) : ∃ c', NodeDone pf allowed c c' n rest := by
  have hfresh := hclean n (Nat.lt_succ_self _) hnone
  have hstep := step_skip pf allowed hv hnone hfresh hrule hfound
  refine ⟨_, ⟨rfl, .single hstep, fun m b hm => hm, fun m _ => ⟨rfl, rfl⟩, hclean, htrue⟩, rfl,
    ?_, fun _ => .inl hfound, ?_⟩
  · intro hfound'
    rw [hfound] at hfound'
    cases hfound'
  · intro hfalse
    exact .inr ⟨.single hstep (restored_of_not_clears hclears), hfalse, fun _ => hfound⟩

end Node

/-! ## The children of a waiting node -/

variable {p : Nat}

lemma takeWhile_pending (hcs : ∀ m ∈ cs, ¬ Pending c m) (hp : Pending c p) :
    (cs ++ p :: rest).takeWhile (fun n => ¬ Pending c n) = cs := by
  induction cs with
  | nil => rw [List.nil_append, List.takeWhile_cons_of_neg (by simpa using hp)]
  | cons m cs ih =>
    rw [List.cons_append, List.takeWhile_cons_of_pos (by simpa using hcs m List.mem_cons_self),
      ih fun k hk => hcs k (List.mem_cons_of_mem m hk)]

/-- What is known about nodes of a rank below `r`. -/
def NodesDone (pf : Proofs F) (allowed : List F) (r : Nat) : Prop :=
  ∀ n, pf.rank n < r → ∀ c rest, c.visit = n :: rest → CleanBelow pf c (pf.rank n + 1) →
    TrueOk pf allowed c → ¬ Clears pf allowed c → ∃ c', NodeDone pf allowed c c' n rest

lemma pending_of_above (h : After pf allowed c c' rest r) (hr : r ≤ pf.rank p)
    (hp : Pending c p) : Pending c' p := by
  obtain ⟨hca, hvis⟩ := h.above p hr
  exact ⟨hca.trans hp.1, hvis.trans hp.2⟩

/-- The round that clears the flag at an assumption. -/
lemma after_leaf (hv : c.visit = n :: rest) (hn : pf.rank n < r) (hnone : c.caMap n = none)
    (hfresh : c.visited n = none) (hrule : (pf.node n).rule = .assume)
    (hclean : CleanBelow pf c r) (htrue : TrueOk pf allowed c)
    (hmem : (pf.node n).assumed ∈ allowed) :
    ∃ c1, After pf allowed c c1 rest r ∧ step pf allowed c = some c1 ∧
      c1.foundAssumption = false ∧ (FalseOk pf allowed c → FalseOk pf allowed c1) := by
  have hret : decide ((pf.node n).assumed ∉ allowed) = false := decide_eq_false fun h => h hmem
  have hstep := step_leaf pf allowed hv hnone hfresh hrule
  rw [hret] at hstep
  have hother : ∀ m, m ≠ n → update c.caMap n (some false) m = c.caMap m :=
    fun m hm => update_of_ne hm (some false) c.caMap
  have hself : update c.caMap n (some false) n = some false :=
    update_self n (some false) c.caMap
  refine ⟨_, ⟨rfl, .single hstep, ?_, ?_, ?_, ?_⟩, hstep, rfl, ?_⟩
  · intro m b hm
    have hne : m ≠ n := by
      rintro rfl
      rw [hnone] at hm
      cases hm
    exact (hother m hne).trans hm
  · intro m hm
    have hne : m ≠ n := by
      rintro rfl
      exact absurd hm (Nat.not_le_of_lt hn)
    exact ⟨hother m hne, update_of_ne hne _ _⟩
  · intro m hm hnone'
    by_cases hne : m = n
    · subst hne
      cases hself.symm.trans hnone'
    · exact (update_of_ne hne _ _).trans (hclean m hm ((hother m hne).symm.trans hnone'))
  · intro m hm
    by_cases hne : m = n
    · subst hne
      cases hself.symm.trans hm
    · exact htrue m ((hother m hne).symm.trans hm)
  intro hfalse m hm
  by_cases hne : m = n
  · subst hne
    exact fun hcontains => (contains_leaf hrule).1 hcontains hmem
  · exact hfalse m ((hother m hne).symm.trans hm)

/-- What is known about the siblings `cs` in front of a waiting node. -/
def SiblingsDone (pf : Proofs F) (allowed : List F) (cs : List Nat) (p : Nat) (rest : List Nat)
    (r : Nat) : Prop :=
  ∀ c, c.visit = cs ++ p :: rest → Pending c p → CleanBelow pf c r → TrueOk pf allowed c →
    ∃ c', ListDone pf allowed c c' cs (p :: rest) r

omit [DecidableEq F] in
lemma not_pending_of_clean (hclean : CleanBelow pf c r) {m : Nat} (hm : pf.rank m < r) :
    ¬ Pending c m := by
  intro hp
  have hfresh := hclean m hm hp.1
  rw [hp.2] at hfresh
  cases hfresh

lemma listDone_clears {x : Nat} (hv : c.visit = x :: (cs ++ p :: rest)) (hx : pf.rank x < r)
    (hcs : ∀ m ∈ cs, pf.rank m < r) (hr : r ≤ pf.rank p) (hp : Pending c p)
    (hclean : CleanBelow pf c r) (htrue : TrueOk pf allowed c) (hclears : Clears pf allowed c)
    (ih : SiblingsDone pf allowed cs p rest r) :
    ∃ c', ListDone pf allowed c c' (x :: cs) (p :: rest) r := by
  have hsiblings : siblings c = cs := by
    rw [siblings, hv]
    exact takeWhile_pending (fun m hm => not_pending_of_clean hclean (hcs m hm)) hp
  obtain ⟨x', rest', hv', hnone, hfresh, hrule, hmem, hfound⟩ := id hclears
  rw [hv] at hv'
  cases hv'
  obtain ⟨c1, hafter, hstep, hfound1, hfalse1⟩ :=
    after_leaf hv hx hnone hfresh hrule hclean htrue hmem
  obtain ⟨c', hdone⟩ := ih c1 hafter.visit (pending_of_above hafter hr hp) hafter.clean hafter.trueOk
  have hsound : c'.foundAssumption = true → ∃ m ∈ cs, Contains pf allowed m := by
    intro h
    refine (hdone.sound h).resolve_left ?_
    rw [hfound1]
    decide
  refine ⟨c', hafter.trans hdone.after (Nat.le_refl r), fun _ => .inl hfound, ?_⟩
  intro hfalse
  by_cases hsome : ∃ m ∈ cs, Contains pf allowed m
  · have hrestored : Restored pf allowed c := by
      intro _
      rw [hsiblings]
      exact hsome
    cases hdone.verdict (hfalse1 hfalse) with
    | inl h => exact .inl ⟨h.1.of_reaches hafter.reaches, h.2⟩
    | inr h =>
      cases h with
      | inl h => exact .inr (.inl ⟨h.1.of_reaches hafter.reaches, h.2.1, .inl hfound⟩)
      | inr h =>
        have hruns : Runs (step pf allowed) (Restored pf allowed) c c1 :=
          .single hstep hrestored
        exact .inr (.inr ⟨hruns.trans h.1, h.2.1, fun _ => h.2.2 (.inr hsome)⟩)
  -- No sibling sets the flag again.
  have hlost : ¬ Restored pf allowed c := by
    intro hrestored
    apply hsome
    rw [← hsiblings]
    exact hrestored hclears
  refine .inr (.inl ⟨⟨c, .refl, hlost⟩, ?_, .inl hfound⟩)
  rw [← Bool.not_eq_true]
  exact fun h => hsome (hsound h)

lemma listDone_cons {x : Nat} {c1 : Traversal} (hr : r ≤ pf.rank p) (hp : Pending c p)
    (hx : pf.rank x < r) (hclean : CleanBelow pf c r)
    (hnode : NodeDone pf allowed c c1 x (cs ++ p :: rest))
    (ih : SiblingsDone pf allowed cs p rest r) :
    ∃ c', ListDone pf allowed c c' (x :: cs) (p :: rest) r := by
  have hreach := hnode.after.reaches
  obtain ⟨c', hdone⟩ := ih c1 hnode.after.visit
    (pending_of_above hnode.after (Nat.lt_of_lt_of_le hx hr) hp) (hnode.after.cleanBelow hclean)
    hnode.after.trueOk
  have hsound : c1.foundAssumption = true ∨ (∃ m ∈ cs, Contains pf allowed m) →
      c.foundAssumption = true ∨ ∃ m ∈ x :: cs, Contains pf allowed m := by
    intro h
    cases h with
    | inl h =>
      cases hnode.sound h with
      | inl h => exact .inl h
      | inr h => exact .inr ⟨x, .head _, h⟩
    | inr h =>
      obtain ⟨m, hm, hcontains⟩ := h
      exact .inr ⟨m, List.mem_cons_of_mem x hm, hcontains⟩
  refine ⟨c', hnode.after.trans hdone.after hx, fun h => hsound (hdone.sound h), ?_⟩
  intro hfalse
  cases hnode.verdict hfalse with
  | inl h => exact .inl ⟨h.1, h.2.of_ext hdone.after.ext⟩
  | inr h =>
    obtain ⟨hruns, hfalse1, hflag⟩ := h
    cases hdone.verdict hfalse1 with
    | inl h => exact .inl ⟨h.1.of_reaches hreach, h.2⟩
    | inr h =>
      cases h with
      | inl h => exact .inr (.inl ⟨h.1.of_reaches hreach, h.2.1, hsound h.2.2⟩)
      | inr h =>
        refine .inr (.inr ⟨hruns.trans h.1, h.2.1, fun hany => h.2.2 ?_⟩)
        cases hany with
        | inl hfound => exact .inl (hflag (.inl hfound))
        | inr hany =>
          obtain ⟨m, hm, hcontains⟩ := hany
          cases List.mem_cons.1 hm with
          | inl heq => exact .inl (hflag (.inr (heq ▸ hcontains)))
          | inr hm => exact .inr ⟨m, hm, hcontains⟩

lemma siblingsDone (hnodes : NodesDone pf allowed r) (hr : r ≤ pf.rank p)
    (hcs : ∀ m ∈ cs, pf.rank m < r) : SiblingsDone pf allowed cs p rest r := by
  induction cs with
  | nil =>
    intro c hv hp hclean htrue
    refine ⟨c, ⟨hv, .refl, fun m b hm => hm, fun m _ => ⟨rfl, rfl⟩, hclean, htrue⟩, .inl, ?_⟩
    intro hfalse
    refine .inr (.inr ⟨.refl, hfalse, fun h => h.resolve_right ?_⟩)
    rintro ⟨m, hm, -⟩
    cases hm
  | cons x cs ih =>
    intro c hv hp hclean htrue
    have hx := hcs x (.head _)
    have hrest := fun m hm => hcs m (List.mem_cons_of_mem x hm)
    by_cases hclears : Clears pf allowed c
    · exact listDone_clears hv hx hrest hr hp hclean htrue hclears (ih hrest)
    obtain ⟨c1, hnode⟩ := hnodes x hx c _ hv
      (fun m hm => hclean m (Nat.lt_of_lt_of_le hm hx)) htrue hclears
    exact listDone_cons hr hp hx hclean hnode (ih hrest)

/-! ## All nodes -/

/-- The round that answers a waiting node. -/
lemma after_done (hv : c.visit = n :: rest) (hp : Pending c n)
    (hclean : ∀ m, m ≠ n → pf.rank m < pf.rank n + 1 → c.caMap m = none → c.visited m = none)
    (htrue : TrueOk pf allowed c) (hsound : c.foundAssumption = true → Contains pf allowed n) :
    ∃ c', After pf allowed c c' rest (pf.rank n + 1) ∧ step pf allowed c = some c' ∧
      c'.cur = n ∧ c'.foundAssumption = c.foundAssumption ∧
      c'.caMap = update c.caMap n (some c.foundAssumption) := by
  have hstep := step_done pf allowed hv hp
  have hself := update_self n (some c.foundAssumption) c.caMap
  have hother : ∀ m, m ≠ n → update c.caMap n (some c.foundAssumption) m = c.caMap m :=
    fun m hm => update_of_ne hm _ c.caMap
  refine ⟨_, ⟨rfl, .single hstep, ?_, ?_, ?_, ?_⟩, hstep, rfl, rfl, rfl⟩
  · intro m b hm
    have hne : m ≠ n := by
      rintro rfl
      rw [hp.1] at hm
      cases hm
    exact (hother m hne).trans hm
  · intro m hm
    have hne : m ≠ n := by
      rintro rfl
      exact absurd hm (Nat.not_succ_le_self _)
    exact ⟨hother m hne, update_of_ne hne _ _⟩
  · intro m hm hnone
    by_cases hne : m = n
    · subst hne
      cases hself.symm.trans hnone
    · exact (update_of_ne hne _ _).trans (hclean m hne hm ((hother m hne).symm.trans hnone))
  intro m hm
  by_cases hne : m = n
  · subst hne
    exact hsound (some.inj (hself.symm.trans hm))
  · exact htrue m ((hother m hne).symm.trans hm)

lemma nodeDone_expand (hv : c.visit = n :: rest) (hclean : CleanBelow pf c (pf.rank n + 1))
    (htrue : TrueOk pf allowed c) (hclears : ¬ Clears pf allowed c) (hnone : c.caMap n = none)
    (hrule : (pf.node n).rule ≠ .assume) (hfound : c.foundAssumption = false)
    (hnodes : NodesDone pf allowed (pf.rank n)) : ∃ c', NodeDone pf allowed c c' n rest := by
  have hfresh := hclean n (Nat.lt_succ_self _) hnone
  have hstep := step_expand pf allowed hv hnone hfresh hrule hfound
  obtain ⟨c0, hc0⟩ : ∃ c0, c0 = { c with
    visited := update c.visited n (some false)
    visit := (pf.node n).children.reverse ++ n :: rest
    cur := n } := ⟨_, rfl⟩
  rw [← hc0] at hstep
  have hca : c0.caMap = c.caMap := by rw [hc0]
  have hfound0 : c0.foundAssumption = false := by rw [hc0, hfound]
  have hvisited : c0.visited = update c.visited n (some false) := by rw [hc0]
  have hvis : ∀ m, m ≠ n → c0.visited m = c.visited m := by
    intro m hm
    rw [hvisited]
    exact update_of_ne hm _ _
  have hp0 : Pending c0 n := by
    constructor
    · rw [hca]
      exact hnone
    · rw [hvisited]
      exact update_self n _ _
  have hne : ∀ m, pf.rank m < pf.rank n → m ≠ n := by
    rintro m hm rfl
    exact Nat.lt_irrefl _ hm
  -- The children.
  obtain ⟨c1, hdone⟩ : ∃ c1,
      ListDone pf allowed c0 c1 (pf.node n).children.reverse (n :: rest) (pf.rank n) := by
    refine siblingsDone hnodes .refl
      (fun m hm => pf.rank_lt n m (List.mem_reverse.1 hm)) c0 (by rw [hc0]) hp0
      ?_ ?_
    · intro m hm hnone'
      rw [hca] at hnone'
      rw [hvis m (hne m hm)]
      exact hclean m (Nat.lt_succ_of_lt hm) hnone'
    intro m hm
    rw [hca] at hm
    exact htrue m hm
  have hp1 : Pending c1 n := pending_of_above hdone.after .refl hp0
  have hcontains : (∃ x ∈ (pf.node n).children.reverse, Contains pf allowed x) ↔
      Contains pf allowed n := by
    rw [contains_inner hrule]
    simp only [List.mem_reverse]
  have hsound : c1.foundAssumption = true → Contains pf allowed n := by
    intro h
    refine hcontains.1 ((hdone.sound h).resolve_left ?_)
    rw [hfound0]
    decide
  -- The node itself.
  obtain ⟨c2, hafter, hstep2, hcur, hfound2, hca2⟩ := after_done hdone.after.visit hp1 (by
    intro m hm hlt hnone'
    by_cases hlt' : pf.rank m < pf.rank n
    · exact hdone.after.clean m hlt' hnone'
    obtain ⟨hca', hvis'⟩ := hdone.after.above m (Nat.le_of_not_lt hlt')
    rw [hca', hca] at hnone'
    rw [hvis', hvis m hm]
    exact hclean m hlt hnone') hdone.after.trueOk hsound
  have hentry : c2.caMap n = some c2.foundAssumption := by
    rw [hca2, hfound2]
    exact update_self n _ _
  have hreach0 : Reaches (step pf allowed) c c0 := .single hstep
  refine ⟨c2, ⟨hafter.visit, hreach0.trans (hdone.after.reaches.trans hafter.reaches), ?_, ?_,
    hafter.clean, hafter.trueOk⟩, hcur, fun _ => hentry, ?_, ?_⟩
  · intro m b hm
    rw [← hca] at hm
    exact hafter.ext m b (hdone.after.ext m b hm)
  · intro m hm
    have hne' : m ≠ n := by
      rintro rfl
      exact absurd hm (Nat.not_succ_le_self _)
    obtain ⟨hca', hvis'⟩ := hdone.after.above m (Nat.le_of_succ_le hm)
    obtain ⟨hca2', hvis2'⟩ := hafter.above m hm
    rw [hca2', hca', hvis2', hvis', hca, hvis m hne']
    exact ⟨rfl, rfl⟩
  · intro h
    exact .inr (hsound (hfound2 ▸ h))
  intro hfalse
  rw [FalseOk, ← hca] at hfalse
  cases hdone.verdict hfalse with
  | inl h => exact .inl ⟨h.1.of_reaches hreach0, h.2.of_ext hafter.ext⟩
  | inr h =>
    cases h with
    | inl h =>
      -- The flag is lost, so the node gets the wrong entry.
      obtain ⟨hloses, hlost, hany⟩ := h
      refine .inl ⟨hloses.of_reaches hreach0, n, ?_, ?_⟩
      · rw [hentry, hfound2, hlost]
      refine hcontains.1 (hany.resolve_left ?_)
      rw [hfound0]
      decide
    | inr h =>
      obtain ⟨hruns, hfalse1, hflag⟩ := h
      have hruns0 : Runs (step pf allowed) (Restored pf allowed) c c0 :=
        .single hstep (restored_of_not_clears hclears)
      have hruns2 : Runs (step pf allowed) (Restored pf allowed) c1 c2 := by
        refine .single hstep2 (restored_of_not_clears ?_)
        rintro ⟨x, rest', hv', -, hfresh', -⟩
        rw [hdone.after.visit] at hv'
        cases hv'
        rw [hp1.2] at hfresh'
        cases hfresh'
      have hflag2 : Contains pf allowed n → c2.foundAssumption = true := by
        intro h
        rw [hfound2]
        exact hflag (.inr (hcontains.2 h))
      refine .inr ⟨hruns0.trans (hruns.trans hruns2), ?_, ?_⟩
      · intro m hm
        by_cases hne' : m = n
        · subst hne'
          intro h
          have hset := some.inj (hentry.symm.trans hm)
          rw [hflag2 h] at hset
          cases hset
        · rw [hca2, update_of_ne hne'] at hm
          exact hfalse1 m hm
      intro h
      cases h with
      | inl h =>
        rw [hfound] at h
        cases h
      | inr h => exact hflag2 h

lemma nodesDone : NodesDone pf allowed r := by
  induction r with
  | zero => exact fun n hn => absurd hn (Nat.not_lt_zero _)
  | succ r ih =>
    intro n hn c rest hv hclean htrue hclears
    cases hb : c.caMap n with
    | some b => exact nodeDone_cached hv hclean htrue hclears hb
    | none =>
      by_cases hrule : (pf.node n).rule = .assume
      · exact nodeDone_leaf hv hclean htrue hclears hb hrule
      cases hfound : c.foundAssumption with
      | true => exact nodeDone_skip hv hclean htrue hclears hb hrule hfound
      | false =>
        exact nodeDone_expand hv hclean htrue hclears hb hrule hfound fun m hm =>
          ih m (Nat.lt_of_lt_of_le hm (Nat.le_of_lt_succ hn))

/-! ## The whole traversal -/

variable {pn : Nat} {caMap : Nat → Option Bool}

/-- The traversal ends, with the answer in the flag and in the entry of the node. -/
lemma nodeDone_start (pn : Nat) (hok : CacheOk pf allowed caMap) :
    ∃ c', NodeDone pf allowed (start pn caMap) c' pn [] := by
  refine nodesDone pn (Nat.lt_succ_self _) (start pn caMap) [] rfl (fun m _ _ => rfl)
    (fun m hm => (hok m true hm).1 rfl) ?_
  rintro ⟨_, _, _, _, _, _, _, hfound⟩
  cases hfound

lemma answer_of_entry {b : Bool} (h : c.caMap c.cur = some b) : answer c = (b, c.caMap) := by
  have hget : (c.caMap c.cur).getD false = b := by
    rw [h]
    rfl
  rw [answer, hget, ← h, Function.update_eq_self]

lemma restored_of_end (h : step pf allowed c = none) : Restored pf allowed c := by
  apply restored_of_not_clears
  rintro ⟨cur, rest, hv, -⟩
  rw [step, hv] at h
  cases h

/-- With a correct cache, `containsAssumption` is exact if and only if every round that clears the
flag has a sibling to come that sets it again. -/
theorem exact_iff_restored (hok : CacheOk pf allowed caMap) : Exact pf allowed pn caMap ↔
      ∀ c, Reaches (step pf allowed) (start pn caMap) c → Restored pf allowed c := by
  obtain ⟨c', hdone⟩ := nodeDone_start pn hok
  have hend : step pf allowed c' = none := by rw [step, hdone.after.visit]
  have hentry := hdone.entry rfl
  have hanswer : answer c' = (c'.foundAssumption, c'.caMap) :=
    answer_of_entry (hdone.cur.symm ▸ hentry)
  have hfalse : FalseOk pf allowed (start pn caMap) :=
    fun m hm hcontains => Bool.noConfusion ((hok m false hm).2 hcontains)
  cases hdone.verdict hfalse with
  | inl h =>
    obtain ⟨⟨d, hd, hlost⟩, m, hm, hcontains⟩ := h
    refine iff_of_false ?_ fun hall => hlost (hall d hd)
    rintro ⟨k, r, caMap', hrun, -, hok'⟩
    obtain ⟨z, hz, hans⟩ := map_inv hrun
    rw [Loop.run_eq_of_reaches hz hdone.after.reaches hend, hanswer] at hans
    cases hans
    exact Bool.noConfusion ((hok' m false hm).2 hcontains)
  | inr h =>
    obtain ⟨hruns, hfalse', hflag⟩ := h
    refine iff_of_true ?_ ?_
    · obtain ⟨k, hk⟩ := Loop.run_of_reaches hdone.after.reaches hend
      refine ⟨k, c'.foundAssumption, c'.caMap, ?_, ?_, ?_⟩
      · rw [containsAssumption, hk, Option.map_some, hanswer]
      · refine ⟨fun h => (hdone.sound h).resolve_left ?_, fun h => hflag (.inr h)⟩
        exact Bool.noConfusion
      intro m b hm
      cases b with
      | true => exact iff_of_true rfl (hdone.after.trueOk m hm)
      | false => exact iff_of_false Bool.noConfusion (hfalse' m hm)
    · intro c hc
      by_cases hne : step pf allowed c = none
      · exact restored_of_end hne
      · exact hruns.holds hend hc hne

/-! ## Two leaves -/

/-- A step with two assumptions, of which the last child is visited first. -/
def twoLeaves (first last : Nat) : Proofs Nat where
  node
    | 0 => ⟨.other 0, [1, 2], [], 0⟩
    | 1 => ⟨.assume, [], [first], first⟩
    | 2 => ⟨.assume, [], [last], last⟩
    | _ => ⟨.other 0, [], [], 0⟩
  rank
    | 0 => 1
    | _ => 0
  rank_lt n c hc := by
    match n with
    | 0 =>
      cases hc with
      | head => decide
      | tail _ hc => cases hc with
        | head => decide
        | tail _ hc => cases hc
    | 1 | 2 | _ + 3 => cases hc
  leaf n hn := by
    match n with
    | 0 => cases hn
    | 1 | 2 | _ + 3 => rfl

omit [DecidableEq F] in
lemma cacheOk_none : CacheOk pf allowed fun _ => none := by
  intro n b h
  cases h

/-- Without allowed assumptions nothing clears the flag. -/
theorem twoLeaves_exact : Exact (twoLeaves 7 8) [] 0 fun _ => none := by
  refine (exact_iff_restored cacheOk_none).2 fun c _ => restored_of_not_clears ?_
  rintro ⟨_, _, _, _, _, _, hmem, _⟩
  cases hmem

/-- The assumption `8` is not allowed and visited first; `7` then clears the flag. -/
theorem twoLeaves_not_exact :
    ¬ (CacheOk (twoLeaves 7 8) [7] (fun _ => none) → Exact (twoLeaves 7 8) [7] 0 fun _ => none) := by
  intro hexact
  obtain ⟨k, r, caMap', hrun, hr, _⟩ := hexact cacheOk_none
  have hcontains : Contains (twoLeaves 7 8) [7] 0 :=
    ⟨2, .single (List.mem_cons_of_mem 1 (.head _)), rfl, by decide⟩
  obtain ⟨z, hz, hans⟩ := map_inv hrun
  have hfirst : (containsAssumption (twoLeaves 7 8) [7] 5 0 fun _ => none).map Prod.fst =
      some false := rfl
  obtain ⟨z', hz', hans'⟩ := map_inv hfirst
  obtain ⟨z'', hz'', rfl⟩ := map_inv hz'
  cases Loop.run_unique hz'' hz
  rw [hans] at hans'
  cases hans'.symm.trans (hr.2 hcontains)

end EthosCpc.Cvc5.ProofNodes
