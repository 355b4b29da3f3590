import EthosCpc.Cvc5.CDProof
import Mathlib.Logic.Relation
import Mathlib.Data.Nat.Basic
import Mathlib.Order.Basic

/-!
# The links of a context-dependent proof

What holds of the heap and of the map at any time: every node is an
assumption, a step of symmetry or a recorded step of its formula, and every
assumption below an entry of the map is itself an entry, made at the same
level of the context or at a lower one.  The lemmas say what a lookup and what
an update of a node in place do to this.
-/

namespace EthosCpc.Cvc5.Cdp

open Relation
open Function (update_of_ne update_self)

variable {T : Type} [DecidableEq T]

/-! ## Symmetric formulas -/

lemma getSymmFact_symm {f g : Fact T} (h : getSymmFact f = some g) : getSymmFact g = some f := by
  cases f with
  | other p => cases h
  | eq polarity a b =>
    by_cases hab : a = b
    · rw [getSymmFact, if_pos hab] at h
      cases h
    rw [getSymmFact, if_neg hab] at h
    cases h
    exact if_neg fun hba => hab hba.symm

lemma getSymmFact_ne {f g : Fact T} (h : getSymmFact f = some g) : f ≠ g := by
  cases f with
  | other p => cases h
  | eq polarity a b =>
    by_cases hab : a = b
    · rw [getSymmFact, if_pos hab] at h
      cases h
    rw [getSymmFact, if_neg hab] at h
    cases h
    intro heq
    injection heq with _ h1 _
    exact hab h1

/-- The same formula up to symmetry. -/
def Same (f g : Fact T) : Prop := f = g ∨ getSymmFact f = some g

namespace Same

variable {f g h : Fact T}

lemma refl (f : Fact T) : Same f f := .inl rfl

lemma symm (hfg : Same f g) : Same g f := by
  rcases hfg with rfl | hfg
  · exact refl f
  · exact .inr (getSymmFact_symm hfg)

lemma trans (hfg : Same f g) (hgh : Same g h) : Same f h := by
  rcases hfg with rfl | hfg
  · exact hgh
  rcases hgh with rfl | hgh
  · exact .inr hfg
  have hback := getSymmFact_symm hfg
  rw [hgh] at hback
  exact .inl (Option.some.inj hback).symm

end Same

/-! ## Reachable nodes -/

namespace State

variable (st : State T)

def Child (n m : Nat) : Prop := m ∈ (st.heap n).children

def Reach : Nat → Nat → Prop := ReflTransGen st.Child

/-- The node is an assumption, or one step of symmetry above one. -/
def IsAssume (n : Nat) : Prop :=
  (st.heap n).rule = .assume ∨
    ((st.heap n).rule = .symm ∧ ∃ m, (st.heap n).children = [m] ∧ (st.heap m).rule = .assume)

/-- The assumptions below the node are entries, made at a level or below it. -/
def LeavesBelow (n l : Nat) : Prop :=
  ∀ p, st.Reach n p → (st.heap p).rule = .assume →
    ∃ l' ≤ l, st.nodes (st.heap p).proven = some (p, l')

/-- The assumptions below the entries for a formula, up to symmetry, are made at a level or below
it; where there is no entry, this is asked of the one that will be made. -/
def LeavesWithin (c : Fact T) (l : Nat) : Prop :=
  (∀ g n l', Same c g → st.nodes g = some (n, l') → st.LeavesBelow n l) ∧
    ((∀ g, Same c g → st.nodes g = none) → st.level ≤ l)

end State

lemma State.LeavesWithin.congr {st : State T} {c c' : Fact T} {l : Nat}
    (h : st.LeavesWithin c l) (hsame : Same c c') : st.LeavesWithin c' l :=
  ⟨fun g n l' hg => h.1 g n l' (hsame.trans hg),
    fun hnone => h.2 fun g hg => hnone g (hsame.symm.trans hg)⟩

variable (steps : List (Step T))

/-- A node is an assumption, a step of symmetry or a recorded step.  Above a step of symmetry there
is at most one more, and then the formula has been proven. -/
def NodeOk (st : State T) (n : Nat) : Prop :=
  (∀ c ∈ (st.heap n).children, c < st.size) ∧
  match (st.heap n).rule with
  | .assume => (st.heap n).children = [] ∧ (st.heap n).args = [(st.heap n).proven]
  | .symm => ∃ m, (st.heap n).children = [m] ∧
      getSymmFact (st.heap m).proven = some (st.heap n).proven ∧
      ((st.heap m).rule = .symm → ∃ k, (st.heap m).children = [k] ∧
        (st.heap k).rule ≠ .symm ∧ (st.heap k).rule ≠ .assume)
  | .other id => ∃ s ∈ steps, s.rule = .other id ∧ s.expected = (st.heap n).proven ∧
      s.args = (st.heap n).args ∧
      ((st.heap n).children.map fun c => (st.heap c).proven) = s.children

/-- The heap and the map fit together. -/
structure Linked (st : State T) : Prop where
  entry : ∀ f n l, st.nodes f = some (n, l) → n < st.size ∧ (st.heap n).proven = f ∧ l ≤ st.level
  node : ∀ n < st.size, NodeOk steps st n
  backed : ∀ f n l, st.nodes f = some (n, l) → st.LeavesBelow n l

/-- Besides, a formula has a step if and only if its symmetric formula has one. -/
structure Inv (st : State T) : Prop extends Linked steps st where
  paired : ∀ f g n m l l', getSymmFact f = some g → st.nodes f = some (n, l) →
    st.nodes g = some (m, l') → st.IsAssume n → st.IsAssume m

variable {steps} {st st' : State T} {n m p : Nat}

lemma Linked.reach_lt (h : Linked steps st) (hn : n < st.size) (hreach : st.Reach n p) :
    p < st.size := by
  induction hreach with
  | refl => exact hn
  | tail _ hchild ih => exact (h.node _ ih).1 _ hchild

lemma isAssumption_iff (h : NodeOk steps st n) : st.isAssumption n = true ↔ st.IsAssume n := by
  unfold State.isAssumption State.IsAssume
  cases hrule : (st.heap n).rule with
  | assume => simp
  | other id => simp
  | symm =>
    have hok := h.2
    rw [hrule] at hok
    obtain ⟨m, hm, _, htwice⟩ := hok
    have hchild : st.child n = m := by
      unfold State.child
      rw [hm]
      rfl
    simp only [hm, reduceCtorEq, if_false, ne_eq, not_true, false_or, true_and, List.cons.injEq,
      and_true, exists_eq_left']
    by_cases hsymm : (st.heap m).rule = .symm
    · obtain ⟨k, hk, hk1, hk2⟩ := htwice hsymm
      have hchild' : st.child m = k := by
        unfold State.child
        rw [hk]
        rfl
      have hcancel : st.cancelDoubleSymm (st.size + 1) n = k := by
        rw [State.cancelDoubleSymm, hchild, if_pos ⟨hrule, hsymm⟩, hchild']
        cases st.size with
        | zero => rfl
        | succ j => rw [State.cancelDoubleSymm, if_neg fun h => hk1 h.1]
      rw [hcancel, if_neg hk2, if_pos hk1, hsymm]
      simp
    · have hcancel : st.cancelDoubleSymm (st.size + 1) n = n := by
        rw [State.cancelDoubleSymm, hchild, if_neg fun h => hsymm h.2]
      rw [hcancel, hrule, hchild]
      simp

/-! ## Extensions -/

/-- Nodes and entries have been added. -/
structure Ext (st st' : State T) : Prop where
  size_le : st.size ≤ st'.size
  heap_eq : ∀ n < st.size, st'.heap n = st.heap n
  nodes_eq : ∀ f e, st.nodes f = some e → st'.nodes f = some e
  level_eq : st'.level = st.level

omit [DecidableEq T] in
lemma Ext.refl (st : State T) : Ext st st := ⟨le_rfl, fun _ _ => rfl, fun _ _ h => h, rfl⟩

omit [DecidableEq T] in
lemma Ext.trans {st'' : State T} (h : Ext st st') (h' : Ext st' st'') : Ext st st'' where
  size_le := h.size_le.trans h'.size_le
  heap_eq n hn := (h'.heap_eq n (hn.trans_le h.size_le)).trans (h.heap_eq n hn)
  nodes_eq f e he := h'.nodes_eq f e (h.nodes_eq f e he)
  level_eq := h'.level_eq.trans h.level_eq

lemma Ext.reach_iff (he : Ext st st') (h : Linked steps st) (hn : n < st.size) :
    st'.Reach n p ↔ st.Reach n p := by
  constructor
  · intro hreach
    induction hreach with
    | refl => exact .refl
    | tail _ hchild ih =>
      unfold State.Child at hchild
      rw [he.heap_eq _ (h.reach_lt hn ih)] at hchild
      exact ih.tail hchild
  intro hreach
  induction hreach with
  | refl => exact .refl
  | tail hpath hchild ih =>
    refine ih.tail ?_
    unfold State.Child
    rw [he.heap_eq _ (h.reach_lt hn hpath)]
    exact hchild

lemma Ext.leavesBelow (he : Ext st st') (h : Linked steps st) (hn : n < st.size) {l : Nat}
    (hl : st.LeavesBelow n l) : st'.LeavesBelow n l := by
  intro p hreach hrule
  have hreach' := (he.reach_iff h hn).1 hreach
  have heq := he.heap_eq p (h.reach_lt hn hreach')
  rw [heq] at hrule ⊢
  obtain ⟨l', hle, hentry⟩ := hl p hreach' hrule
  exact ⟨l', hle, he.nodes_eq _ _ hentry⟩

lemma Ext.nodeOk (he : Ext st st') (h : Linked steps st) (hn : n < st.size) :
    NodeOk steps st' n := by
  obtain ⟨hlt, hok⟩ := h.node n hn
  have heq := he.heap_eq n hn
  refine ⟨fun c hc => ?_, ?_⟩
  · rw [heq] at hc
    exact (hlt c hc).trans_le he.size_le
  rw [heq]
  cases hrule : (st.heap n).rule with
  | assume =>
    rw [hrule] at hok
    exact hok
  | symm =>
    rw [hrule] at hok
    obtain ⟨m, hm, hsymm, htwice⟩ := hok
    have hmlt : m < st.size := hlt m (by rw [hm]; exact List.mem_singleton_self m)
    refine ⟨m, hm, ?_, ?_⟩
    · rw [he.heap_eq m hmlt]
      exact hsymm
    rw [he.heap_eq m hmlt]
    intro hms
    obtain ⟨k, hk, hk1, hk2⟩ := htwice hms
    have hklt : k < st.size :=
      (h.node m hmlt).1 k (by rw [hk]; exact List.mem_singleton_self k)
    exact ⟨k, hk, by rw [he.heap_eq k hklt]; exact hk1, by rw [he.heap_eq k hklt]; exact hk2⟩
  | other id =>
    rw [hrule] at hok
    obtain ⟨s, hs, h1, h2, h3, h4⟩ := hok
    refine ⟨s, hs, h1, h2, h3, ?_⟩
    rw [← h4]
    exact List.map_congr_left fun c hc => by rw [he.heap_eq c (hlt c hc)]

lemma Ext.isAssume_iff (he : Ext st st') (h : Linked steps st) (hn : n < st.size) :
    st'.IsAssume n ↔ st.IsAssume n := by
  unfold State.IsAssume
  rw [he.heap_eq n hn]
  refine or_congr_right (and_congr_right fun _ => exists_congr fun m => and_congr_right fun hm => ?_)
  rw [he.heap_eq m ((h.node n hn).1 m (by rw [hm]; exact List.mem_singleton_self m))]

omit [DecidableEq T] in
lemma ext_mkNode (st : State T) (node : ProofNode T) : Ext st (st.mkNode node).2 :=
  ⟨Nat.le_succ _, fun n hn => update_of_ne (by omega) _ _, fun _ _ h => h, rfl⟩

lemma ext_insert (st : State T) {f : Fact T} (hf : st.nodes f = none) (n : Nat) :
    Ext st (st.insert f n) := by
  refine ⟨le_rfl, fun _ _ => rfl, fun g e hg => ?_, rfl⟩
  have hne : g ≠ f := by
    rintro rfl
    rw [hf] at hg
    cases hg
  exact (update_of_ne hne _ _).trans hg

lemma Inv.mkNode (h : Inv steps st) {node : ProofNode T}
    (hok : NodeOk steps (st.mkNode node).2 st.size) : Inv steps (st.mkNode node).2 := by
  have he := ext_mkNode st node
  refine ⟨⟨fun f n l hf => ?_, fun n hn => ?_, fun f n l hf => ?_⟩,
    fun f g n m l l' hfg hf hg hassume => ?_⟩
  · obtain ⟨hlt, hproven, hlevel⟩ := h.entry f n l hf
    refine ⟨Nat.lt_succ_of_lt hlt, ?_, hlevel⟩
    rw [he.heap_eq n hlt]
    exact hproven
  · rcases Nat.lt_succ_iff_lt_or_eq.1 hn with hlt | rfl
    · exact he.nodeOk h.toLinked hlt
    · exact hok
  · exact he.leavesBelow h.toLinked (h.entry f n l hf).1 (h.backed f n l hf)
  rw [he.isAssume_iff h.toLinked (h.entry f n l hf).1] at hassume
  rw [he.isAssume_iff h.toLinked (h.entry g m l' hg).1]
  exact h.paired f g n m l l' hfg hf hg hassume

/-- An entry is made for a formula without one. -/
lemma Inv.insert (h : Inv steps st) {f : Fact T} (hf : st.nodes f = none) (hn : n < st.size)
    (hproven : (st.heap n).proven = f)
    (hleaf : ∀ p, st.Reach n p → (st.heap p).rule = .assume →
      p = n ∨ ∃ l ≤ st.level, st.nodes (st.heap p).proven = some (p, l))
    (hpair : ∀ g m l, getSymmFact f = some g → st.nodes g = some (m, l) →
      (st.IsAssume n ↔ st.IsAssume m)) : Inv steps (st.insert f n) := by
  have he := ext_insert st hf n
  have hself : (st.insert f n).nodes f = some (n, st.level) := update_self _ _ _
  have hcases : ∀ g e, (st.insert f n).nodes g = some e →
      (g = f ∧ e = (n, st.level)) ∨ (g ≠ f ∧ st.nodes g = some e) := by
    intro g e hg
    by_cases hgf : g = f
    · subst hgf
      rw [hself] at hg
      exact .inl ⟨rfl, (Option.some.inj hg).symm⟩
    · exact .inr ⟨hgf, (update_of_ne hgf _ _).symm.trans hg⟩
  refine ⟨⟨fun g m l hg => ?_, fun m hm => he.nodeOk h.toLinked hm, fun g m l hg => ?_⟩,
    fun g g' m m' l l' hsymm hg hg' hassume => ?_⟩
  · rcases hcases g (m, l) hg with ⟨rfl, heq⟩ | ⟨_, hold⟩
    · cases heq
      exact ⟨hn, hproven, le_rfl⟩
    · exact h.entry g m l hold
  · rcases hcases g (m, l) hg with ⟨rfl, heq⟩ | ⟨_, hold⟩
    · cases heq
      intro p hreach hrule
      rcases hleaf p hreach hrule with rfl | ⟨l', hle, hentry⟩
      · exact ⟨_, le_rfl, by rw [show ((st.insert g p).heap p).proven = g from hproven]; exact hself⟩
      · exact ⟨l', hle, he.nodes_eq _ _ hentry⟩
    · exact he.leavesBelow h.toLinked (h.entry g m l hold).1 (h.backed g m l hold)
  rcases hcases g (m, l) hg with ⟨rfl, heq⟩ | ⟨_, hold⟩
  · cases heq
    rcases hcases g' (m', l') hg' with ⟨rfl, _⟩ | ⟨_, hold'⟩
    · exact absurd rfl (getSymmFact_ne hsymm)
    · exact (hpair g' m' l' hsymm hold').1 hassume
  rcases hcases g' (m', l') hg' with ⟨rfl, heq⟩ | ⟨_, hold'⟩
  · cases heq
    exact (hpair g m l (getSymmFact_symm hsymm) hold).2 hassume
  · exact h.paired g g' m m' l l' hsymm hold hold' hassume

/-! ## Updates in place -/

section Update

variable {rule : Rule} {children : List Nat} {args : List (Fact T)}

omit [DecidableEq T] in
@[simp] lemma proven_updateNode (x : Nat) :
    ((st.updateNode n rule children args).heap x).proven = (st.heap x).proven := by
  by_cases hx : x = n
  · subst hx
    simp [State.updateNode]
  · simp [State.updateNode, hx]

omit [DecidableEq T] in
lemma heap_updateNode_self : (st.updateNode n rule children args).heap n =
    ⟨rule, children, args, (st.heap n).proven⟩ := update_self _ _ _

omit [DecidableEq T] in
lemma heap_updateNode_of_ne {x : Nat} (hx : x ≠ n) :
    (st.updateNode n rule children args).heap x = st.heap x := update_of_ne hx _ _

omit [DecidableEq T] in
lemma reach_updateNode {a : Nat} (h : (st.updateNode n rule children args).Reach a p) :
    st.Reach a p ∨ (st.Reach a n ∧ ∃ c ∈ children, st.Reach c p) := by
  induction h with
  | refl => exact .inl .refl
  | @tail b p _ hchild ih =>
    unfold State.Child at hchild
    by_cases hb : b = n
    · subst hb
      rw [heap_updateNode_self] at hchild
      rcases ih with ih | ⟨ih, _⟩ <;> exact .inr ⟨ih, p, hchild, .refl⟩
    rw [heap_updateNode_of_ne hb] at hchild
    rcases ih with ih | ⟨ih, c, hc, hcb⟩
    · exact .inl (ih.tail hchild)
    · exact .inr ⟨ih, c, hc, hcb.tail hchild⟩

/-- An assumption, or a step of symmetry, is replaced: the assumptions below its new premises must
be entries at the level of every entry above it. -/
lemma Linked.updateNode (h : Linked steps st)
    (hold : (st.heap n).rule = .assume ∨ (st.heap n).rule = .symm)
    (hnew : NodeOk steps (st.updateNode n rule children args) n)
    (hrule : (∃ id, rule = .other id) ∨ (rule = .symm ∧ (st.heap n).rule = .assume ∧
      ∃ c, children = [c] ∧ c ≠ n ∧ (st.heap c).rule ≠ .symm ∧ (st.heap c).rule ≠ .assume)) {l : Nat}
    (hlevel : ∀ f m l', st.nodes f = some (m, l') → st.Reach m n → l ≤ l')
    (hchildren : ∀ c ∈ children, st.LeavesBelow c l) :
    Linked steps (st.updateNode n rule children args) := by
  have hnotAssume : rule ≠ .assume := by
    rcases hrule with ⟨id, rfl⟩ | ⟨rfl, _⟩ <;> exact Rule.noConfusion
  have hself : ((st.updateNode n rule children args).heap n).rule = rule := by
    rw [heap_updateNode_self]
  refine ⟨fun f m l hf => ?_, fun m hm => ?_, fun f m l' hf p hreach hassume => ?_⟩
  · obtain ⟨hlt, hproven, hle⟩ := h.entry f m l hf
    exact ⟨hlt, (proven_updateNode m).trans hproven, hle⟩
  · by_cases hmn : m = n
    · subst hmn
      exact hnew
    · obtain ⟨hlt, hok⟩ := h.node m hm
      unfold NodeOk
      rw [heap_updateNode_of_ne hmn]
      refine ⟨hlt, ?_⟩
      cases hm' : (st.heap m).rule with
      | assume =>
        rw [hm'] at hok
        exact hok
      | other id =>
        rw [hm'] at hok
        simpa only [proven_updateNode] using hok
      | symm =>
        rw [hm'] at hok
        obtain ⟨x, hx, hsymm, htwice⟩ := hok
        refine ⟨x, hx, by rwa [proven_updateNode], fun hxs => ?_⟩
        by_cases hxn : x = n
        · -- the node itself was below the step of symmetry
          subst hxn
          rw [hself] at hxs
          rcases hrule with ⟨id, rfl⟩ | ⟨_, _, c, hc, hcn, hc1, hc2⟩
          · cases hxs
          refine ⟨c, by rw [heap_updateNode_self]; exact hc, ?_, ?_⟩
          · rwa [heap_updateNode_of_ne hcn]
          · rwa [heap_updateNode_of_ne hcn]
        rw [heap_updateNode_of_ne hxn] at hxs ⊢
        obtain ⟨k, hk, hk1, hk2⟩ := htwice hxs
        have hkn : k ≠ n := by
          rintro rfl
          exact hold.elim hk2 hk1
        exact ⟨k, hk, by rwa [heap_updateNode_of_ne hkn], by rwa [heap_updateNode_of_ne hkn]⟩
  · have hpn : p ≠ n := by
      rintro rfl
      exact hnotAssume (hself.symm.trans hassume)
    rw [heap_updateNode_of_ne hpn] at hassume ⊢
    rcases reach_updateNode hreach with hreach | ⟨hreach, c, hc, hcp⟩
    · exact h.backed f m l' hf p hreach hassume
    · obtain ⟨l'', hle, hentry⟩ := hchildren c hc p hcp hassume
      exact ⟨l'', hle.trans (hlevel f m l' hf hreach), hentry⟩

omit [DecidableEq T] in
lemma leavesBelow_updateNode {l : Nat} (hrule : rule ≠ .assume)
    (hchildren : ∀ c ∈ children, st.LeavesBelow c l) :
    (st.updateNode n rule children args).LeavesBelow n l := by
  intro p hreach hassume
  have hpn : p ≠ n := by
    rintro rfl
    rw [heap_updateNode_self] at hassume
    exact hrule hassume
  rw [heap_updateNode_of_ne hpn] at hassume ⊢
  rcases ReflTransGen.cases_head hreach with heq | ⟨c, hchild, hcp⟩
  · exact absurd heq.symm hpn
  unfold State.Child at hchild
  rw [heap_updateNode_self] at hchild
  rcases reach_updateNode hcp with hold | ⟨_, c', hc', hold⟩
  · exact hchildren c hchild p hold hassume
  · exact hchildren c' hc' p hold hassume

end Update

end EthosCpc.Cvc5.Cdp
