import EthosCpc.Cvc5.CDProofLinked
import Mathlib.Data.List.Forall2
import EthosCpc.Library.Inversion

/-!
# Context-dependent proofs are linked

`addStep` and `getProofFor` keep the links, as long as no assumption of an
outer context is overwritten by a step whose open premises belong to an inner
one.  In such runs the proof that is returned is acyclic, its nodes prove their
formulas, and none of its assumptions has a step.  A run that pops a context
after the opposite does not.
-/

namespace EthosCpc.Cvc5.Cdp

open Relation
open List (Forall₂ mem_cons mem_singleton)
open Function (update_of_ne update_self)

variable {T : Type} [DecidableEq T] {steps : List (Step T)} {st st' : State T}

/-! ## Lookups -/

/-- A formula has been looked up: it has an entry now, and nothing else has changed. -/
structure Looked (steps : List (Step T)) (st : State T) (c : Fact T) (p : Nat) (st' : State T) :
    Prop where
  inv : Inv steps st'
  ext : Ext st st'
  entry : ∃ l, st'.nodes c = some (p, l)
  others : ∀ f, ¬ Same c f → st'.nodes f = st.nodes f
  fresh : ∀ g e, st'.nodes g = some e → st.nodes g = none → e.2 = st.level
  within : ∀ c' l, st.LeavesWithin c' l → st'.LeavesWithin c' l

variable {p : Nat}

lemma within_ext (h : Linked steps st) (he : Ext st st') {c : Fact T}
    (hentries : ∀ g e, st'.nodes g = some e → st.nodes g = some e ∨ (g = c ∧ e.1 = p))
    (hnew : ∀ l, st.LeavesWithin c l → st'.LeavesBelow p l) (c' : Fact T) (l : Nat)
    (hc' : st.LeavesWithin c' l) : st'.LeavesWithin c' l := by
  refine ⟨fun g n l' hsame hg => ?_, fun hnone => ?_⟩
  · rcases hentries g (n, l') hg with hold | ⟨rfl, rfl⟩
    · exact he.leavesBelow h (h.entry g n l' hold).1 (hc'.1 g n l' hsame hold)
    · exact hnew l (hc'.congr hsame)
  rw [he.level_eq]
  refine hc'.2 fun g hsame => ?_
  cases hg : st.nodes g with
  | none => rfl
  | some e =>
    have hnew := he.nodes_eq g e hg
    rw [hnone g hsame] at hnew
    cases hnew

variable {f : Fact T}

variable {l n m : Nat} {pcs : List Nat} {s : Step T}

lemma Looked.of_some (h : Inv steps st) {p : Nat} (hf : st.nodes f = some (p, l)) :
    Looked steps st f p st :=
  ⟨h, Ext.refl st, ⟨l, hf⟩, fun _ _ => rfl,
    fun _ e hg hnone => absurd (hg.symm.trans hnone) (Option.some_ne_none e), fun _ _ h => h⟩

lemma Looked.of_insert (h : Linked steps st) {st1 : State T} (he : Ext st st1)
    (hnodes : st1.nodes = st.nodes) (hf : st.nodes f = none)
    (hinv : Inv steps (st1.insert f p))
    (hnew : ∀ l, st.LeavesWithin f l → (st1.insert f p).LeavesBelow p l) :
    Looked steps st f p (st1.insert f p) := by
  have he' := he.trans (ext_insert st1 (by rw [hnodes]; exact hf) p)
  have hother : ∀ g, g ≠ f → (st1.insert f p).nodes g = st.nodes g := fun g hgf => by
    rw [← hnodes]
    exact update_of_ne hgf _ _
  have hself : (st1.insert f p).nodes f = some (p, st1.level) := update_self _ _ _
  refine ⟨hinv, he', ⟨st1.level, hself⟩, fun g hg => hother g fun heq => hg (.inl heq.symm),
    fun g e hg hnone => ?_, within_ext h he' (fun g e hg => ?_) hnew⟩
  · by_cases hgf : g = f
    · subst hgf
      rw [hself] at hg
      cases hg
      exact he.level_eq
    · rw [hother g hgf, hnone] at hg
      cases hg
  by_cases hgf : g = f
  swap
  · rw [hother g hgf] at hg
    exact .inl hg
  subst hgf
  rw [hself] at hg
  cases hg
  exact .inr ⟨rfl, rfl⟩

/-- An assumption is entered for a formula that has no entry up to symmetry. -/
lemma looked_addAssume (h : Inv steps st) (hnone : ∀ g, Same f g → st.nodes g = none) :
    Looked steps st f (st.addAssume f).1 (st.addAssume f).2 ∧
      ((st.addAssume f).2.heap (st.addAssume f).1).rule = .assume := by
  have hnode : (st.mkNode ⟨.assume, [], [f], f⟩).2.heap st.size = ⟨.assume, [], [f], f⟩ :=
    update_self _ _ _
  have hmk : Inv steps (st.mkNode ⟨.assume, [], [f], f⟩).2 := by
    refine h.mkNode ⟨fun c hc => ?_, ?_⟩
    · rw [hnode] at hc
      cases hc
    · rw [hnode]
      exact ⟨rfl, rfl⟩
  have hreach : ∀ p, (st.mkNode ⟨.assume, [], [f], f⟩).2.Reach st.size p → p = st.size := by
    intro p hp
    rcases ReflTransGen.cases_head hp with heq | ⟨c, hchild, _⟩
    · exact heq.symm
    unfold State.Child at hchild
    rw [hnode] at hchild
    cases hchild
  have hf : st.nodes f = none := hnone f (Same.refl f)
  refine ⟨Looked.of_insert h.toLinked (ext_mkNode st _) rfl hf ?_ ?_, by
    exact congrArg ProofNode.rule hnode⟩
  · refine hmk.insert hf (Nat.lt_succ_self _) (congrArg ProofNode.proven hnode)
      (fun p hp _ => .inl (hreach p hp)) fun g m l hg hm => ?_
    have hgnone : st.nodes g = none := hnone g (.inr hg)
    rw [show (st.mkNode ⟨.assume, [], [f], f⟩).2.nodes g = st.nodes g from rfl, hgnone] at hm
    cases hm
  intro l hl p hp _
  have hps := hreach p hp
  subst hps
  refine ⟨st.level, hl.2 hnone, ?_⟩
  change Function.update st.nodes f (some (st.size, st.level))
    ((st.mkNode ⟨.assume, [], [f], f⟩).2.heap st.size).proven = some (st.size, st.level)
  rw [hnode]
  exact update_self _ _ _

omit [DecidableEq T] in
lemma getProof_of_some {p : Nat} (hf : st.nodes f = some (p, l)) : st.getProof f = some p := by
  rw [State.getProof, hf]
  rfl

omit [DecidableEq T] in
lemma getProof_of_none (hf : st.nodes f = none) : st.getProof f = none := by
  rw [State.getProof, hf]
  rfl

/-- A formula with an entry is looked up without a change. -/
lemma getProofSymm_of_some (h : Inv steps st) {p : Nat}
    (hf : st.nodes f = some (p, l)) : st.getProofSymm f = (some p, st) := by
  rw [State.getProofSymm, getProof_of_some hf]
  dsimp only
  split
  swap
  · rfl
  rename_i hassume
  rw [isAssumption_iff (h.node p (h.entry f p l hf).1)] at hassume
  split
  swap
  · rfl
  rename_i pfs hpfs
  obtain ⟨g, hg, hproof⟩ := bind_inv hpfs
  obtain ⟨⟨m, l'⟩, hm, rfl⟩ := map_inv hproof
  have hpair := h.paired f g p m l l' hg hf hm hassume
  rw [if_pos ((isAssumption_iff (h.node m (h.entry g m l' hm).1)).2 hpair)]

lemma getProofSymm_of_none (hnone : ∀ g, Same f g → st.nodes g = none) :
    st.getProofSymm f = (none, st) := by
  rw [State.getProofSymm, getProof_of_none (hnone f (Same.refl f))]
  have hpartner : (getSymmFact f).bind st.getProof = none := by
    cases hg : getSymmFact f with
    | none => rfl
    | some g => exact getProof_of_none (hnone g (.inr hg))
  rw [hpartner]

lemma getProofSymm_of_partner (h : Inv steps st) {f g : Fact T} {pfs : Nat}
    (hf : st.nodes f = none) (hfg : getSymmFact f = some g) (hg : st.nodes g = some (pfs, l)) :
    ∃ p st', st.getProofSymm f = (some p, st') ∧ Looked steps st f p st' := by
  obtain ⟨hlt, hproven, hlevel⟩ := h.entry g pfs l hg
  have hgf := getSymmFact_symm hfg
  have hlook : st.getProofSymm f =
      (some (st.mkSymm pfs f).1, (st.mkSymm pfs f).2.insert f (st.mkSymm pfs f).1) := by
    rw [State.getProofSymm, getProof_of_none hf, hfg, Option.bind_some, getProof_of_some hg]
  rw [hlook, State.mkSymm]
  have hunique : ∀ g' m l', getSymmFact f = some g' → st.nodes g' = some (m, l') → m = pfs := by
    intro g' m l' hg' hm
    rw [hfg] at hg'
    cases hg'
    rw [hg] at hm
    cases hm
    rfl
  by_cases hsymm : (st.heap pfs).rule = .symm
  · -- the premise of the symmetric step is the proof
    rw [if_pos hsymm]
    have hok := (h.node pfs hlt).2
    rw [hsymm] at hok
    obtain ⟨m, hm, hmsymm, htwice⟩ := hok
    have hchild : st.child pfs = m := by
      unfold State.child
      rw [hm]
      rfl
    have hedge : st.Child pfs m := by
      unfold State.Child
      rw [hm]
      exact List.mem_singleton_self m
    have hmf : (st.heap m).proven = f := by
      rw [hproven] at hmsymm
      have hback := getSymmFact_symm hmsymm
      rw [hgf] at hback
      exact (Option.some.inj hback).symm
    have hbelow : ∀ l', st.LeavesBelow pfs l' → st.LeavesBelow m l' := fun l' hl' p hp =>
      hl' p (.head hedge hp)
    rw [hchild]
    refine ⟨m, _, rfl, Looked.of_insert h.toLinked (Ext.refl st) rfl hf ?_ ?_⟩
    · refine h.insert hf ((h.node pfs hlt).1 m hedge) hmf (fun p hp hrule => .inr ?_)
        fun g' m' l' hg' hm' => ?_
      · obtain ⟨l', hle, hentry⟩ := hbelow l (h.backed g pfs l hg) p hp hrule
        exact ⟨l', hle.trans hlevel, hentry⟩
      · rw [hunique g' m' l' hg' hm']
        unfold State.IsAssume
        rw [hsymm]
        constructor
        · rintro (hrule | ⟨hrule, k, hk, hkrule⟩)
          · exact .inr ⟨rfl, m, hm, hrule⟩
          · obtain ⟨k', hk', _, hk2⟩ := htwice hrule
            rw [hk] at hk'
            cases hk'
            exact absurd hkrule hk2
        · rintro (hrule | ⟨_, k, hk, hkrule⟩)
          · cases hrule
          · rw [hm] at hk
            cases hk
            exact .inl hkrule
    · intro l' hl'
      have hold := hbelow l' (hl'.1 g pfs l (.inr hfg) hg)
      exact (ext_insert st hf m).leavesBelow h.toLinked ((h.node pfs hlt).1 m hedge) hold
  rw [if_neg hsymm]
  generalize hnode : (⟨.symm, [pfs], [], f⟩ : ProofNode T) = node
  have he := ext_mkNode st node
  have hself : (st.mkNode node).2.heap st.size = ⟨.symm, [pfs], [], f⟩ := by
    rw [hnode]
    exact update_self _ _ _
  have hpfs : (st.mkNode node).2.heap pfs = st.heap pfs := he.heap_eq pfs hlt
  have hmk : Inv steps (st.mkNode node).2 := by
    refine h.mkNode ⟨fun c hc => ?_, ?_⟩
    · rw [hself] at hc
      rw [mem_singleton.1 hc]
      exact Nat.lt_succ_of_lt hlt
    rw [hself]
    refine ⟨pfs, rfl, ?_, fun hrule => ?_⟩
    · rw [hpfs, hproven]
      exact hgf
    · rw [hpfs] at hrule
      exact absurd hrule hsymm
  have hdown : ∀ p, (st.mkNode node).2.Reach st.size p →
      ((st.mkNode node).2.heap p).rule = .assume → (st.mkNode node).2.Reach pfs p := by
    intro p hp hrule
    rcases ReflTransGen.cases_head hp with rfl | ⟨c, hchild, hcp⟩
    · rw [hself] at hrule
      cases hrule
    unfold State.Child at hchild
    rw [hself] at hchild
    rw [← mem_singleton.1 hchild]
    exact hcp
  refine ⟨_, _, rfl, Looked.of_insert h.toLinked he rfl hf ?_ ?_⟩
  · refine hmk.insert hf (Nat.lt_succ_self _) (congrArg ProofNode.proven hself)
      (fun p hp hrule => .inr ?_) fun g' m' l' hg' hm' => ?_
    · obtain ⟨l', hle, hentry⟩ := hmk.backed g pfs l hg p (hdown p hp hrule) hrule
      exact ⟨l', hle.trans hlevel, hentry⟩
    · rw [hunique g' m' l' hg' hm']
      unfold State.IsAssume
      rw [show (st.mkNode node).1 = st.size from rfl, hself, hpfs]
      constructor
      · rintro (hrule | ⟨_, k, hk, hkrule⟩)
        · cases hrule
        · cases hk
          rw [hpfs] at hkrule
          exact .inl hkrule
      · rintro (hrule | ⟨hrule, _⟩)
        · exact .inr ⟨rfl, pfs, rfl, by rw [hpfs]; exact hrule⟩
        · exact absurd hrule hsymm
  intro l' hl' p hp hrule
  have hbelow := he.leavesBelow h.toLinked hlt (hl'.1 g pfs l (.inr hfg) hg)
  have hne : ((st.mkNode node).2.heap p).proven ≠ f := by
    intro heq
    obtain ⟨l'', _, hentry⟩ := hbelow p (hdown p hp hrule) hrule
    rw [heq, show (st.mkNode node).2.nodes f = st.nodes f from rfl, hf] at hentry
    cases hentry
  obtain ⟨l'', hle, hentry⟩ := hbelow p (hdown p hp hrule) hrule
  exact ⟨l'', hle, (update_of_ne hne _ _).trans hentry⟩

lemma getProofSymm_spec (h : Inv steps st) (f : Fact T) :
    (∃ p st', st.getProofSymm f = (some p, st') ∧ Looked steps st f p st') ∨
      (st.getProofSymm f = (none, st) ∧ ∀ g, Same f g → st.nodes g = none) := by
  cases hf : st.nodes f with
  | some e => exact .inl ⟨e.1, st, getProofSymm_of_some h hf, Looked.of_some h hf⟩
  | none =>
    by_cases hpartner : ∃ g e, getSymmFact f = some g ∧ st.nodes g = some e
    · obtain ⟨g, e, hfg, hg⟩ := hpartner
      exact .inl (getProofSymm_of_partner h hf hfg hg)
    have hnone : ∀ g, Same f g → st.nodes g = none := by
      rintro g (rfl | hfg)
      · exact hf
      cases hg : st.nodes g with
      | none => rfl
      | some e => exact absurd ⟨g, e, hfg, hg⟩ hpartner
    exact .inr ⟨getProofSymm_of_none hnone, hnone⟩

lemma looked_getProofFor (h : Inv steps st) (f : Fact T) :
    Looked steps st f (st.getProofFor f).1 (st.getProofFor f).2 := by
  rcases getProofSymm_spec h f with ⟨p, st', hlook, hlooked⟩ | ⟨hlook, hnone⟩
  · rw [State.getProofFor, hlook]
    exact hlooked
  · rw [State.getProofFor, hlook]
    exact (looked_addAssume h hnone).1

/-! ## Premises -/

/-- The premises of a step have been looked up. -/
structure LookedAll (steps : List (Step T)) (st : State T) (cs : List (Fact T)) (st' : State T) :
    Prop where
  inv : Inv steps st'
  ext : Ext st st'
  others : ∀ f, (∀ c ∈ cs, ¬ Same c f) → st'.nodes f = st.nodes f
  within : ∀ c' l, st.LeavesWithin c' l → st'.LeavesWithin c' l

lemma LookedAll.refl (h : Inv steps st) (cs : List (Fact T)) : LookedAll steps st cs st :=
  ⟨h, Ext.refl st, fun _ _ => rfl, fun _ _ h => h⟩

lemma Looked.cons {st1 : State T} {c : Fact T} (h : Looked steps st c p st1)
    {cs : List (Fact T)} (hcs : LookedAll steps st1 cs st') :
    LookedAll steps st (c :: cs) st' where
  inv := hcs.inv
  ext := h.ext.trans hcs.ext
  others f hf := (hcs.others f fun d hd => hf d (List.mem_cons_of_mem c hd)).trans
    (h.others f (hf c (.head _)))
  within c' l hl := hcs.within c' l (h.within c' l hl)

lemma getChildren_spec (ensureChildren : Bool) (cs : List (Fact T)) {st : State T}
    (h : Inv steps st) :
    LookedAll steps st cs (getChildren ensureChildren cs st).2 ∧
      ∀ pcs, (getChildren ensureChildren cs st).1 = some pcs →
        Forall₂ (fun c p => ∃ l, (getChildren ensureChildren cs st).2.nodes c = some (p, l))
          cs pcs := by
  induction cs generalizing st with
  | nil =>
    refine ⟨LookedAll.refl h [], fun pcs hpcs => ?_⟩
    cases hpcs
    exact .nil
  | cons c cs ih =>
    -- one premise that is there, or is entered, and then the others
    have hgo : ∀ p st₁, Looked steps st c p st₁ →
        LookedAll steps st (c :: cs) (getChildren ensureChildren cs st₁).2 ∧
        ∀ pcs, ((getChildren ensureChildren cs st₁).1.map (p :: ·)) = some pcs →
          Forall₂ (fun c p => ∃ l,
            (getChildren ensureChildren cs st₁).2.nodes c = some (p, l)) (c :: cs) pcs := by
      intro p st₁ hlooked
      obtain ⟨hall, hforall⟩ := ih hlooked.inv
      refine ⟨hlooked.cons hall, fun pcs hpcs => ?_⟩
      obtain ⟨pcs', hpcs', rfl⟩ := map_inv hpcs
      obtain ⟨l, hl⟩ := hlooked.entry
      exact .cons ⟨l, hall.ext.nodes_eq c _ hl⟩ (hforall pcs' hpcs')
    rcases getProofSymm_spec h c with ⟨p, st₁, hlook, hlooked⟩ | ⟨hlook, hnone⟩
    · rw [getChildren, hlook]
      exact hgo p st₁ hlooked
    rw [getChildren, hlook]
    dsimp only
    split
    · exact ⟨LookedAll.refl h _, fun pcs hpcs => nomatch hpcs⟩
    · exact hgo _ _ (looked_addAssume h hnone).1

/-! ## Steps -/

/-- Below a node that is an assumption up to symmetry there is the assumption itself, an entry for
the formula up to symmetry. -/
lemma assumption_of_isAssume (h : Linked steps st)
    (hf : st.nodes f = some (n, l)) (hassume : st.IsAssume n) :
    ∃ g e l', Same f g ∧ st.nodes g = some (e, l') ∧ (st.heap e).rule = .assume ∧ st.Reach n e := by
  obtain ⟨hlt, hproven, _⟩ := h.entry f n l hf
  rcases hassume with hrule | ⟨hrule, m, hm, hmrule⟩
  · exact ⟨f, n, l, Same.refl f, hf, hrule, .refl⟩
  have hedge : st.Child n m := by
    unfold State.Child
    rw [hm]
    exact List.mem_singleton_self m
  obtain ⟨l', _, hentry⟩ := h.backed f n l hf m (.single hedge) hmrule
  have hok := (h.node n hlt).2
  rw [hrule] at hok
  obtain ⟨m', hm', hsymm, _⟩ := hok
  rw [hm] at hm'
  cases hm'
  rw [hproven] at hsymm
  exact ⟨_, m, l', .inr (getSymmFact_symm hsymm), hentry, hmrule, .single hedge⟩

lemma premises_of_looked (h : Linked steps st) {cs : List (Fact T)}
    (hpcs : Forall₂ (fun c p => ∃ l, st.nodes c = some (p, l)) cs pcs) :
    (pcs.map fun c => (st.heap c).proven) = cs ∧
      ∀ p ∈ pcs, ∃ c ∈ cs, ∃ l, st.nodes c = some (p, l) := by
  induction hpcs with
  | nil => exact ⟨rfl, fun p hp => nomatch hp⟩
  | @cons c p cs pcs hc _ ih =>
    obtain ⟨l, hl⟩ := hc
    refine ⟨?_, fun q hq => ?_⟩
    · rw [List.map_cons, ih.1, (h.entry c p l hl).2.1]
    rcases mem_cons.1 hq with rfl | hq
    · exact ⟨c, .head _, l, hl⟩
    · obtain ⟨c', hc', h'⟩ := ih.2 q hq
      exact ⟨c', List.mem_cons_of_mem c hc', h'⟩

lemma isAssume_updateNode_of_other (h : Linked steps st) {x : Nat}
    (hf : st.nodes f = some (x, l)) (hne : ¬ Same f (st.heap n).proven) {rule : Rule}
    {children : List Nat} {args : List (Fact T)} :
    (st.updateNode n rule children args).IsAssume x ↔ st.IsAssume x := by
  obtain ⟨hlt, hproven, _⟩ := h.entry f x l hf
  have hxn : x ≠ n := by
    rintro rfl
    exact hne (.inl hproven.symm)
  unfold State.IsAssume
  rw [heap_updateNode_of_ne hxn]
  refine or_congr_right (and_congr_right fun hrule => exists_congr fun m =>
    and_congr_right fun hm => ?_)
  have hmn : m ≠ n := by
    rintro rfl
    have hok := (h.node x hlt).2
    rw [hrule] at hok
    obtain ⟨m', hm', hsymm, _⟩ := hok
    rw [hm] at hm'
    cases hm'
    rw [hproven] at hsymm
    exact hne (.inr (getSymmFact_symm hsymm))
  rw [heap_updateNode_of_ne hmn]

lemma inv_overwrite (h : Inv steps st) (hs : s ∈ steps) {id : Nat}
    (hid : s.rule = .other id) (hn : st.nodes s.expected = some (n, l))
    (hassume : st.IsAssume n)
    (hpcs : Forall₂ (fun c p => ∃ l, st.nodes c = some (p, l)) s.children pcs)
    (hsafe : ∀ g m l', Same s.expected g → st.nodes g = some (m, l') →
      ∀ c ∈ pcs, st.LeavesBelow c l') :
    Inv steps ((st.updateNode n s.rule pcs s.args).notifyNewProof s.expected) := by
  obtain ⟨hlt, hproven, _⟩ := h.entry _ n l hn
  obtain ⟨hmap, hmem⟩ := premises_of_looked h.toLinked hpcs
  have hold : (st.heap n).rule = .assume ∨ (st.heap n).rule = .symm :=
    hassume.imp (fun hrule => hrule) And.left
  have hrule : s.rule ≠ .assume := by
    rw [hid]
    exact Rule.noConfusion
  generalize hst₁ : st.updateNode n s.rule pcs s.args = st₁
  have hnodes : st₁.nodes = st.nodes := by rw [← hst₁]; rfl
  have hself : st₁.heap n = ⟨s.rule, pcs, s.args, (st.heap n).proven⟩ := by
    rw [← hst₁]
    exact heap_updateNode_self
  have hnew : NodeOk steps st₁ n := by
    refine ⟨fun c hc => ?_, ?_⟩
    · rw [hself] at hc
      obtain ⟨f, _, l', hf⟩ := hmem c hc
      rw [← hst₁]
      exact (h.entry f c l' hf).1
    rw [hself, hid]
    refine ⟨s, hs, hid, hproven.symm, rfl, ?_⟩
    rw [← hmap, ← hst₁]
    exact List.map_congr_left fun c _ => proven_updateNode c
  have hlink : Linked steps st₁ := by
    obtain ⟨g₀, e, l₀, hsame₀, he, herule, hreach⟩ :=
      assumption_of_isAssume h.toLinked hn hassume
    rw [← hst₁] at hnew ⊢
    refine h.toLinked.updateNode hold hnew (Or.inl ⟨id, hid⟩) (fun f m l' hf hfn => ?_)
      (hsafe g₀ e l₀ hsame₀ he)
    obtain ⟨l'', hle, hentry⟩ := h.backed f m l' hf e (hfn.trans hreach) herule
    rw [(h.entry g₀ e l₀ he).2.1, he] at hentry
    cases hentry
    exact hle
  have hnotn : ∀ {st₂ : State T}, st₂.heap n = st₁.heap n → ¬ st₂.IsAssume n := by
    intro st₂ hheap hass
    unfold State.IsAssume at hass
    rw [hheap, hself, hid] at hass
    rcases hass with hass | ⟨hass, _⟩ <;> cases hass
  have hother : ∀ f x l', ¬ Same f s.expected → st.nodes f = some (x, l') →
      (st₁.IsAssume x ↔ st.IsAssume x) := by
    intro f x l' hne hf
    rw [← hst₁]
    exact isAssume_updateNode_of_other h.toLinked hf (by rwa [hproven])
  -- the other formulas are paired as before, and these two have no assumption any more
  have hpaired : ∀ {st₂ : State T}, st₂.nodes = st.nodes → st₂.heap n = st₁.heap n →
      (∀ f x l', ¬ Same f s.expected → st.nodes f = some (x, l') →
        (st₂.IsAssume x ↔ st.IsAssume x)) →
      (∀ g m l', getSymmFact s.expected = some g → st.nodes g = some (m, l') → ¬ st₂.IsAssume m) →
      ∀ f g x m l l', getSymmFact f = some g → st₂.nodes f = some (x, l) →
        st₂.nodes g = some (m, l') → st₂.IsAssume x → st₂.IsAssume m := by
    intro st₂ hnodes₂ hheap hoth hsym f g x m l₁ l₂ hfg hf hg hx
    rw [hnodes₂] at hf hg
    by_cases hsame : Same f s.expected
    · rcases hsame with rfl | hsame
      · rw [hn] at hf
        cases hf
        exact absurd hx (hnotn hheap)
      · exact absurd hx (hsym f x l₁ (getSymmFact_symm hsame) hf)
    have hsame' : ¬ Same g s.expected := fun h' =>
      hsame (Same.trans (Or.inr hfg) h')
    exact (hoth g m l₂ hsame' hg).2 (h.paired f g x m l₁ l₂ hfg hf hg ((hoth f x l₁ hsame hf).1 hx))
  unfold State.notifyNewProof
  cases hsym : getSymmFact s.expected with
  | none => exact ⟨hlink, hpaired hnodes rfl hother fun g m l' hg _ => by rw [hsym] at hg; cases hg⟩
  | some g =>
    have hgsym := getSymmFact_symm hsym
    dsimp only
    cases hg : st.nodes g with
    | none =>
      have hnone : st₁.getProof g = none := getProof_of_none (by rw [hnodes]; exact hg)
      rw [hnone, if_neg (by simp)]
      refine ⟨hlink, hpaired hnodes rfl hother fun g' m l' hg' hm => ?_⟩
      rw [hsym] at hg'
      cases hg'
      rw [hg] at hm
      cases hm
    | some entry =>
      obtain ⟨m, lg⟩ := entry
      obtain ⟨hmlt, hmproven, _⟩ := h.entry g m lg hg
      have hmn : m ≠ n := by
        rintro rfl
        exact getSymmFact_ne hsym (hproven.symm.trans hmproven)
      have hheapm : st₁.heap m = st.heap m := by
        rw [← hst₁]
        exact heap_updateNode_of_ne hmn
      have hsize : st₁.size = st.size := by rw [← hst₁]; rfl
      have hproofg : st₁.getProof g = some m :=
        getProof_of_some (show st₁.nodes g = some (m, lg) by rw [hnodes]; exact hg)
      have hproofn : st₁.getProof s.expected = some n :=
        getProof_of_some (show st₁.nodes s.expected = some (n, l) by rw [hnodes]; exact hn)
      have honly : ∀ g' m' l', getSymmFact s.expected = some g' → st.nodes g' = some (m', l') →
          m' = m := by
        intro g' m' l' hg' hm'
        rw [hsym] at hg'
        cases hg'
        rw [hg] at hm'
        cases hm'
        rfl
      have hnstep : st₁.isAssumption n = false := Bool.eq_false_iff.2 fun hass =>
        hnotn rfl ((isAssumption_iff (hlink.node n (by rw [hsize]; exact hlt))).1 hass)
      rw [hproofg, Option.isSome_some, if_pos rfl, State.getProofSymm, hproofg]
      dsimp only
      rw [hgsym, Option.bind_some, hproofn]
      dsimp only
      rw [hnstep, if_neg Bool.false_ne_true]
      rcases h.paired s.expected g n m l lg hsym hn hg hassume with hmrule | ⟨hmrule, x, hx, hxrule⟩
      · -- the symmetric assumption is redirected to the new step
        have hmrule₁ : (st₁.heap m).rule = .assume := by rw [hheapm]; exact hmrule
        have hmass : st₁.isAssumption m = true :=
          (isAssumption_iff (hlink.node m (by rw [hsize]; exact hmlt))).2 (Or.inl hmrule₁)
        rw [hmass, if_pos rfl]
        dsimp only
        have hheapn : (st₁.updateNode m .symm [n] []).heap n = st₁.heap n :=
          heap_updateNode_of_ne hmn.symm
        have hselfm : (st₁.updateNode m .symm [n] []).heap m =
            ⟨.symm, [n], [], (st₁.heap m).proven⟩ := heap_updateNode_self
        have hnrule : (st₁.heap n).rule = .other id := by rw [hself]; exact hid
        have hnew₂ : NodeOk steps (st₁.updateNode m .symm [n] []) m := by
          refine ⟨fun c hc => ?_, ?_⟩
          · rw [hselfm] at hc
            rw [mem_singleton.1 hc]
            exact hlt.trans_eq hsize.symm
          rw [hselfm]
          refine ⟨n, rfl, ?_, fun hns => ?_⟩
          · rw [hheapn, hself, hheapm, hproven, hmproven]
            exact hsym
          · rw [hheapn, hnrule] at hns
            cases hns
        have hlink₂ : Linked steps (st₁.updateNode m .symm [n] []) := by
          refine hlink.updateNode (Or.inl hmrule₁) hnew₂ (Or.inr ⟨rfl, hmrule₁, n, rfl,
            hmn.symm, by rw [hnrule]; exact Rule.noConfusion,
            by rw [hnrule]; exact Rule.noConfusion⟩) (l := lg) (fun f x l' hf hfm => ?_)
            fun c hc => ?_
          · obtain ⟨l'', hle, hentry⟩ := hlink.backed f x l' hf m hfm hmrule₁
            rw [hheapm, hmproven, hnodes, hg] at hentry
            cases hentry
            exact hle
          · rw [mem_singleton.1 hc, ← hst₁]
            exact leavesBelow_updateNode hrule (hsafe g m lg (Or.inr hsym) hg)
        refine ⟨hlink₂, hpaired hnodes hheapn (fun f x l' hne hf => ?_)
          fun g' m' l' hg' hm' hass => ?_⟩
        · have hne' : ¬ Same f (st₁.heap m).proven := by
            rw [hheapm, hmproven]
            exact fun h' => hne (h'.trans (Or.inr hgsym))
          exact (isAssume_updateNode_of_other hlink (by rw [hnodes]; exact hf) hne').trans
            (hother f x l' hne hf)
        rw [honly g' m' l' hg' hm'] at hass
        unfold State.IsAssume at hass
        rw [hselfm] at hass
        rcases hass with hass | ⟨_, k, hk, hkrule⟩
        · cases hass
        cases hk
        rw [hheapn, hnrule] at hkrule
        cases hkrule
      -- the symmetric formula was proven from the assumption that is a step now
      have hxn : x = n := by
        have hedge : st.Child m x := by
          unfold State.Child
          rw [hx]
          exact List.mem_singleton_self x
        obtain ⟨l', _, hentry⟩ := h.backed g m lg hg x (.single hedge) hxrule
        have hok := (h.node m hmlt).2
        rw [hmrule] at hok
        obtain ⟨x', hx', hxsym, _⟩ := hok
        rw [hx] at hx'
        cases hx'
        rw [hmproven] at hxsym
        have hback := getSymmFact_symm hxsym
        rw [hgsym] at hback
        rw [← Option.some.inj hback, hn] at hentry
        cases hentry
        rfl
      have hnotm : ¬ st₁.IsAssume m := by
        unfold State.IsAssume
        rw [hheapm, hmrule, hx, hxn]
        rintro (hass | ⟨_, k, hk, hkrule⟩)
        · cases hass
        cases hk
        rw [hself, hid] at hkrule
        cases hkrule
      have hmass : st₁.isAssumption m = false := Bool.eq_false_iff.2 fun hass =>
        hnotm ((isAssumption_iff (hlink.node m (by rw [hsize]; exact hmlt))).1 hass)
      rw [hmass, if_neg Bool.false_ne_true]
      refine ⟨hlink, hpaired hnodes rfl hother fun g' m' l' hg' hm' => ?_⟩
      rw [honly g' m' l' hg' hm']
      exact hnotm

/-- The step is safe: where it overwrites an assumption, up to symmetry, the assumptions below its
premises belong to the contexts of the entries it changes. -/
def Safe (st : State T) (s : Step T) : Prop :=
  s.rule ≠ .symm → s.checked = true → st.hasStep s.expected = false →
    ∀ g n l, Same s.expected g → st.nodes g = some (n, l) → ∀ c ∈ s.children, st.LeavesWithin c l

lemma hasStep_eq_false (h : Inv steps st)
    (hf : ∀ g n l, Same f g → st.nodes g = some (n, l) → st.IsAssume n) :
    st.hasStep f = false := by
  have hany : ∀ g, Same f g → (st.getProof g).any (fun pf => !st.isAssumption pf) = false := by
    intro g hsame
    cases hg : st.nodes g with
    | none => rw [getProof_of_none hg]; rfl
    | some e =>
      rw [getProof_of_some hg, Option.any_some,
        (isAssumption_iff (h.node e.1 (h.entry g e.1 e.2 hg).1)).2 (hf g e.1 e.2 hsame hg)]
      rfl
  rw [State.hasStep, hany f (Same.refl f), Bool.false_or]
  cases hfg : getSymmFact f with
  | none => rfl
  | some g => exact hany g (.inr hfg)

lemma Looked.hasStep_eq_false (h : Inv steps st)
    (hl : Looked steps st f p st') (hassume : st'.IsAssume p) : st.hasStep f = false := by
  obtain ⟨lp, hp⟩ := hl.entry
  refine Cdp.hasStep_eq_false h fun g n l hsame hg => ?_
  have hg' := hl.ext.nodes_eq g _ hg
  refine (hl.ext.isAssume_iff h.toLinked (h.entry g n l hg).1).1 ?_
  rcases hsame with rfl | hsym
  · rw [hp] at hg'
    cases hg'
    exact hassume
  · exact hl.inv.paired f g p n lp l hsym hp hg' hassume

lemma getChildren_symm (h : Inv steps st) {g : Fact T} (hnone : ∀ g', Same g g' →
    st.nodes g' = none) {ensureChildren : Bool}
    (hpcs : (getChildren ensureChildren [g] st).1 = some pcs) :
    (pcs.head?.any (getChildren ensureChildren [g] st).2.isAssumption) = true := by
  obtain ⟨hlooked, hrule⟩ := looked_addAssume h hnone
  rw [getChildren, getProofSymm_of_none hnone] at hpcs ⊢
  dsimp only at hpcs ⊢
  split at hpcs
  · cases hpcs
  rename_i hensure
  rw [if_neg hensure]
  cases hpcs
  obtain ⟨l, hl⟩ := hlooked.entry
  exact (isAssumption_iff (hlooked.inv.node _ (hlooked.inv.entry g _ l hl).1)).2 (.inl hrule)

/-- A step of a formula without an entry, up to symmetry. -/
lemma inv_addNode_none (h : Inv steps st) (hs : s ∈ steps) (hsymm : s.rule ≠ .symm)
    (hnone : ∀ g, Same s.expected g → st.nodes g = none)
    (hpcs : Forall₂ (fun c p => ∃ l, st.nodes c = some (p, l)) s.children pcs) :
    Inv steps (addNode s none pcs st).2 := by
  unfold addNode
  split
  swap
  · exact h
  dsimp only
  obtain ⟨hmap, hmem⟩ := premises_of_looked h.toLinked hpcs
  generalize hnode : (⟨s.rule, pcs, s.args, s.expected⟩ : ProofNode T) = node
  have he := ext_mkNode st node
  have hself : (st.mkNode node).2.heap st.size = ⟨s.rule, pcs, s.args, s.expected⟩ := by
    rw [hnode]
    exact update_self _ _ _
  have hlt : ∀ c ∈ pcs, c < st.size := fun c hc => by
    obtain ⟨f, _, l, hf⟩ := hmem c hc
    exact (h.entry f c l hf).1
  have hmk : Inv steps (st.mkNode node).2 := by
    refine h.mkNode ⟨fun c hc => ?_, ?_⟩
    · rw [hself] at hc
      exact Nat.lt_succ_of_lt (hlt c hc)
    rw [hself]
    cases hrule : s.rule with
    | symm => exact absurd hrule hsymm
    | assume =>
      obtain ⟨hchildren, hargs⟩ := s.assume_ok hrule
      rw [hchildren] at hmap
      exact ⟨List.map_eq_nil_iff.1 hmap, hargs⟩
    | other id =>
      refine ⟨s, hs, hrule, rfl, rfl, ?_⟩
      rw [← hmap]
      exact List.map_congr_left fun c hc => by rw [he.heap_eq c (hlt c hc)]
  have hexp := hnone s.expected (Same.refl _)
  have hinsert : Inv steps ((st.mkNode node).2.insert s.expected (st.mkNode node).1) := by
    refine hmk.insert hexp (Nat.lt_succ_self _) (congrArg ProofNode.proven hself)
      (fun p hp hrule => ?_) fun g m l hg hm => ?_
    · rcases ReflTransGen.cases_head hp with heq | ⟨c, hchild, hcp⟩
      · exact Or.inl heq.symm
      · right
        unfold State.Child at hchild
        rw [show (st.mkNode node).1 = st.size from rfl, hself] at hchild
        obtain ⟨f, _, l, hf⟩ := hmem c hchild
        obtain ⟨l', hle, hentry⟩ := hmk.backed f c l hf p hcp hrule
        exact ⟨l', hle.trans (h.entry f c l hf).2.2, hentry⟩
    · have hgnone := hnone g (Or.inr hg)
      rw [show (st.mkNode node).2.nodes g = st.nodes g from rfl, hgnone] at hm
      cases hm
  unfold State.notifyNewProof
  cases hsym : getSymmFact s.expected with
  | none => exact hinsert
  | some g =>
    have hproof : ((st.mkNode node).2.insert s.expected (st.mkNode node).1).getProof g = none :=
      getProof_of_none ((update_of_ne (getSymmFact_ne hsym).symm _ _).trans (hnone g (Or.inr hsym)))
    dsimp only
    rw [hproof, if_neg (by simp)]
    exact hinsert

lemma inv_addStep (h : Inv steps st) (hs : s ∈ steps)
    (hother : s.rule ≠ .symm → ∀ c ∈ s.children, ¬ Same c s.expected) (hsafe : Safe st s) :
    Inv steps (addStep s st).2 := by
  unfold addStep
  rcases getProofSymm_spec h s.expected with ⟨p, st1, hlook, hl⟩ | ⟨hlook, hnone⟩
  · rw [hlook]
    dsimp only
    split
    · exact hl.inv
    rename_i hover
    rw [Option.any_some, Bool.not_eq_true', Bool.not_eq_false, State.shouldOverwrite,
      Bool.and_eq_true, decide_eq_true_iff] at hover
    obtain ⟨hassume1, hnotAssume⟩ := hover
    obtain ⟨lp, hp⟩ := hl.entry
    rw [isAssumption_iff (hl.inv.node p (hl.inv.entry _ p lp hp).1)] at hassume1
    obtain ⟨hall, hforall⟩ := getChildren_spec s.ensureChildren s.children hl.inv
    generalize getChildren s.ensureChildren s.children st1 = res at hall hforall
    obtain ⟨pcs?, st2⟩ := res
    dsimp only at hall hforall
    cases pcs? with
    | none => exact hall.inv
    | some pcs =>
      have hpcs := hforall pcs rfl
      have hp2 := hall.ext.nodes_eq _ _ hp
      have hassume2 : st2.IsAssume p :=
        (hall.ext.isAssume_iff hl.inv.toLinked (hl.inv.entry _ p lp hp).1).2 hassume1
      dsimp only
      split
      · exact hall.inv
      rename_i hsymm
      unfold addNode
      split
      swap
      · exact hall.inv
      rename_i hchecked
      dsimp only
      cases hrule : s.rule with
      | assume => exact absurd hrule hnotAssume
      | symm =>
        -- the premise is an assumption as well
        obtain ⟨g, hg, hgsym⟩ := s.symm_ok hrule
        rw [hg] at hpcs
        cases hpcs with
        | @cons _ pc _ _ hpc hrest =>
          obtain ⟨lg, hlg⟩ := hpc
          have hpair := hall.inv.paired _ g p pc lp lg (getSymmFact_symm hgsym) hp2 hlg hassume2
          refine absurd ⟨hrule, ?_⟩ hsymm
          exact (isAssumption_iff (hall.inv.node pc (hall.inv.entry g pc lg hlg).1)).2 hpair
      | other id =>
        rw [← hrule]
        have hne := hother (by rw [hrule]; exact Rule.noConfusion)
        have hnostep := hl.hasStep_eq_false h hassume1
        refine inv_overwrite hall.inv hs hrule hp2 hassume2 hpcs
          fun g m l' hsame hg c hc => ?_
        have hg1 : st1.nodes g = some (m, l') := by
          rw [← hall.others g fun d hd hdg => hne d hd (hdg.trans hsame.symm)]
          exact hg
        obtain ⟨_, hmem⟩ := premises_of_looked hall.inv.toLinked hpcs
        obtain ⟨f, hf, lf, hentry⟩ := hmem c hc
        cases hg0 : st.nodes g with
        | some e =>
          have heq := hl.ext.nodes_eq g e hg0
          rw [hg1] at heq
          cases heq
          have hwithin := hsafe (by rw [hrule]; exact Rule.noConfusion) hchecked hnostep
            g m l' hsame hg0 f hf
          exact (hall.within f l' (hl.within f l' hwithin)).1 f c lf (Same.refl f) hentry
        | none =>
          have hlevel : l' = st.level := hl.fresh g _ hg1 hg0
          intro q hq hqrule
          obtain ⟨l'', hle, hq'⟩ := hall.inv.backed f c lf hentry q hq hqrule
          refine ⟨l'', hle.trans ?_, hq'⟩
          rw [hlevel, ← hl.ext.level_eq, ← hall.ext.level_eq]
          exact (hall.inv.entry f c lf hentry).2.2
  · rw [hlook]
    dsimp only [Option.any_none]
    rw [if_neg Bool.false_ne_true]
    obtain ⟨hall, hforall⟩ := getChildren_spec s.ensureChildren s.children h
    have hsymmCase : s.rule = .symm → ∀ pcs,
        (getChildren s.ensureChildren s.children st).1 = some pcs →
        (pcs.head?.any (getChildren s.ensureChildren s.children st).2.isAssumption) = true := by
      intro hrule pcs hpcs
      obtain ⟨g, hg, hgsym⟩ := s.symm_ok hrule
      rw [hg] at hpcs ⊢
      refine getChildren_symm h (fun g' hg' => hnone g' ?_) hpcs
      exact Same.trans (Or.inr (getSymmFact_symm hgsym)) hg'
    generalize getChildren s.ensureChildren s.children st = res at hall hforall hsymmCase
    obtain ⟨pcs?, st2⟩ := res
    dsimp only at hall hforall hsymmCase
    cases pcs? with
    | none => exact hall.inv
    | some pcs =>
      dsimp only
      split
      · exact hall.inv
      rename_i hsymm
      have hrule : s.rule ≠ .symm := fun hrule => hsymm ⟨hrule, hsymmCase hrule pcs rfl⟩
      refine inv_addNode_none hall.inv hs hrule (fun g hsame => ?_) (hforall pcs rfl)
      rw [hall.others g fun d hd hdg => hother hrule d hd (hdg.trans hsame.symm)]
      exact hnone g hsame

/-! ## Contexts -/

lemma inv_push (h : Inv steps st) : Inv steps st.push := by
  refine ⟨⟨fun f n l hf => ?_, h.node, h.backed⟩, h.paired⟩
  obtain ⟨hlt, hproven, hle⟩ := h.entry f n l hf
  exact ⟨hlt, hproven, hle.trans (Nat.le_succ _)⟩

omit [DecidableEq T] in
lemma nodes_pop : st.pop.nodes f = some (n, l) ↔ st.nodes f = some (n, l) ∧ l ≤ st.level - 1 := by
  unfold State.pop
  rw [Option.filter_eq_some_iff, decide_eq_true_iff]

lemma inv_pop (h : Inv steps st) : Inv steps st.pop := by
  refine ⟨⟨fun f n l hf => ?_, h.node, fun f n l hf p hp hrule => ?_⟩,
    fun f g n m l l' hfg hf hg => ?_⟩
  · obtain ⟨hold, hle⟩ := nodes_pop.1 hf
    obtain ⟨hlt, hproven, _⟩ := h.entry f n l hold
    exact ⟨hlt, hproven, hle⟩
  · obtain ⟨hold, hle⟩ := nodes_pop.1 hf
    obtain ⟨l', hle', hentry⟩ := h.backed f n l hold p hp hrule
    exact ⟨l', hle', nodes_pop.2 ⟨hentry, hle'.trans hle⟩⟩
  · exact h.paired f g n m l l' hfg (nodes_pop.1 hf).1 (nodes_pop.1 hg).1

lemma inv_empty (fact : Fact T) : Inv steps (State.empty fact) :=
  ⟨⟨fun _ _ _ hf => (nomatch hf), fun _ hn => absurd hn (Nat.not_lt_zero _),
    fun _ _ _ hf => (nomatch hf)⟩, fun _ _ _ _ _ _ _ hf => (nomatch hf)⟩

/-! ## Runs -/

def stepsOf (ops : List (Op T)) : List (Step T) :=
  ops.filterMap fun
    | .addStep s => some s
    | _ => none

/-- A formula is concluded from a premise, both up to symmetry, other than by symmetry. -/
def Below (steps : List (Step T)) (g f : Fact T) : Prop :=
  ∃ s ∈ steps, s.rule ≠ .symm ∧ Same s.expected f ∧ ∃ c ∈ s.children, Same c g

/-- No formula is concluded from itself. -/
def Acyclic (steps : List (Step T)) : Prop := ∀ f, ¬ TransGen (Below steps) f f

def SafeRun : State T → List (Op T) → Prop
  | _, [] => True
  | st, op :: ops => (∀ s, op = .addStep s → Safe st s) ∧ SafeRun (op.exec st) ops

lemma inv_run {ops : List (Op T)} (h : Inv steps st) (hacyclic : Acyclic steps)
    (hsub : ∀ s ∈ stepsOf ops, s ∈ steps) (hsafe : SafeRun st ops) : Inv steps (run st ops) := by
  induction ops generalizing st with
  | nil => exact h
  | cons op ops ih =>
    obtain ⟨hop, hrest⟩ := hsafe
    have hsub' : ∀ s ∈ stepsOf ops, s ∈ steps := fun s hs => hsub s (by
      rw [stepsOf, List.filterMap_cons]
      split
      · exact hs
      · exact .tail _ hs)
    refine ih ?_ hsub' hrest
    cases op with
    | push => exact inv_push h
    | pop => exact inv_pop h
    | getProofFor fact => exact (looked_getProofFor h fact).inv
    | addStep s =>
      have hs : s ∈ steps := hsub s (.head _)
      exact inv_addStep h hs (fun hrule c hc hsame => hacyclic s.expected
        (.single ⟨s, hs, hrule, Same.refl _, c, hc, hsame⟩)) (hop s rfl)

/-! ## The proof that is returned -/

lemma Below.congr {f f' g g' : Fact T} (h : Below steps g f) (hg : Same g g') (hf : Same f f') :
    Below steps g' f' := by
  obtain ⟨s, hs, hrule, hexp, c, hc, hcg⟩ := h
  exact ⟨s, hs, hrule, hexp.trans hf, c, hc, hcg.trans hg⟩

lemma transGen_congr {f f' g g' : Fact T} (h : TransGen (Below steps) g f) (hg : Same g g')
    (hf : Same f f') : TransGen (Below steps) g' f' := by
  obtain ⟨c, hgc, hcf⟩ := TransGen.head'_iff.1 h
  have hfirst := hgc.congr hg (Same.refl c)
  rcases ReflTransGen.cases_tail hcf with rfl | ⟨d, hcd, hdf⟩
  · exact .single (hfirst.congr (Same.refl _) hf)
  · exact (TransGen.head' hfirst hcd).tail (hdf.congr (Same.refl d) hf)

/-- How many steps of symmetry stand above a step. -/
def height (st : State T) (n : Nat) : Nat :=
  if (st.heap n).rule = .symm then (if (st.heap (st.child n)).rule = .symm then 2 else 1) else 0

/-- A child is concluded before, or it is the symmetric formula with fewer steps of symmetry. -/
def Lower (steps : List (Step T)) (st : State T) (m n : Nat) : Prop :=
  TransGen (Below steps) (st.heap m).proven (st.heap n).proven ∨
    (Same (st.heap m).proven (st.heap n).proven ∧ height st m < height st n)

lemma Lower.trans {k : Nat} (h : Lower steps st k m) (h' : Lower steps st m n) :
    Lower steps st k n := by
  rcases h with h | ⟨hsame, hlt⟩
  · rcases h' with h' | ⟨hsame', _⟩
    · exact .inl (h.trans h')
    · exact .inl (transGen_congr h (Same.refl _) hsame')
  rcases h' with h' | ⟨hsame', hlt'⟩
  · exact .inl (transGen_congr h' hsame.symm (Same.refl _))
  · exact .inr ⟨hsame.trans hsame', hlt.trans hlt'⟩

lemma lower_of_child (h : Linked steps st) (hn : n < st.size)
    (hchild : st.Child n m) : Lower steps st m n := by
  obtain ⟨_, hok⟩ := h.node n hn
  unfold State.Child at hchild
  cases hrule : (st.heap n).rule with
  | assume =>
    rw [hrule] at hok
    rw [hok.1] at hchild
    cases hchild
  | symm =>
    rw [hrule] at hok
    obtain ⟨x, hx, hsymm, htwice⟩ := hok
    rw [hx] at hchild
    cases mem_singleton.1 hchild
    have hchildn : st.child n = m := by
      unfold State.child
      rw [hx]
      rfl
    refine .inr ⟨.inr hsymm, ?_⟩
    unfold height
    rw [hrule, if_pos rfl, hchildn]
    by_cases hm : (st.heap m).rule = .symm
    swap
    · rw [if_neg hm, if_neg hm]
      exact Nat.zero_lt_one
    obtain ⟨k, hk, hk1, _⟩ := htwice hm
    have hchildm : st.child m = k := by
      unfold State.child
      rw [hk]
      rfl
    rw [if_pos hm, if_pos hm, hchildm, if_neg hk1]
    exact Nat.lt_succ_self 1
  | other id =>
    rw [hrule] at hok
    obtain ⟨s, hs, hid, hexp, _, hmap⟩ := hok
    refine .inl (.single ⟨s, hs, by rw [hid]; exact Rule.noConfusion, .inl hexp, _, ?_,
      Same.refl _⟩)
    rw [← hmap]
    exact List.mem_map_of_mem hchild

lemma lower_of_transGen (h : Linked steps st) (hn : n < st.size)
    (hpath : TransGen st.Child n m) : Lower steps st m n := by
  induction hpath with
  | single hchild => exact lower_of_child h hn hchild
  | tail hpath hchild ih =>
    exact (lower_of_child h (h.reach_lt hn hpath.to_reflTransGen) hchild).trans ih

/-- After a run whose steps are all safe the proof of a formula proves it, is acyclic, consists of
recorded steps, and none of its assumptions has a step. -/
theorem getProofFor_linked {ops : List (Op T)} {fact : Fact T}
    (hacyclic : Acyclic (stepsOf ops)) (hsafe : SafeRun (State.empty fact) ops) (f : Fact T) :
    let pf := (run (State.empty fact) ops).getProofFor f
    (pf.2.heap pf.1).proven = f ∧
      ∀ n, pf.2.Reach pf.1 n → ¬ TransGen pf.2.Child n n ∧ NodeOk (stepsOf ops) pf.2 n ∧
        ((pf.2.heap n).rule = .assume → pf.2.hasStep (pf.2.heap n).proven = false) := by
  intro pf
  have hrun := inv_run (inv_empty fact) hacyclic (fun s hs => hs) hsafe
  have hl := looked_getProofFor hrun f
  obtain ⟨l, hl'⟩ := hl.entry
  obtain ⟨hlt, hproven, _⟩ := hl.inv.entry f _ l hl'
  refine ⟨hproven, fun n hn => ?_⟩
  have hnlt := hl.inv.toLinked.reach_lt hlt hn
  refine ⟨fun hcycle => ?_, hl.inv.node n hnlt, fun hrule => ?_⟩
  · rcases lower_of_transGen hl.inv.toLinked hnlt hcycle with h | ⟨_, h⟩
    · exact hacyclic _ h
    · exact Nat.lt_irrefl _ h
  obtain ⟨l', _, hentry⟩ := hl.inv.backed f _ l hl' n hn hrule
  refine hasStep_eq_false hl.inv fun g m l'' hsame hg => ?_
  rcases hsame with rfl | hsym
  · rw [hentry] at hg
    cases hg
    exact .inl hrule
  · exact hl.inv.paired _ g n m l' l'' hsym hentry hg (.inl hrule)

lemma acyclic_of_rank (rank : Fact T → Nat)
    (hrank : ∀ s ∈ steps, ∀ f g, Same s.expected f → ∀ c ∈ s.children, Same c g → rank g < rank f) :
    Acyclic steps := by
  have hlt : ∀ g f, TransGen (Below steps) g f → rank g < rank f := by
    intro g f h
    induction h with
    | single h =>
      obtain ⟨s, hs, _, hexp, c, hc, hcg⟩ := h
      exact hrank s hs _ _ hexp c hc hcg
    | tail _ h ih =>
      obtain ⟨s, hs, _, hexp, c, hc, hcg⟩ := h
      exact ih.trans (hrank s hs _ _ hexp c hc hcg)
  exact fun f h => Nat.lt_irrefl _ (hlt f f h)

/-- The formula with a number. -/
def atom (n : Nat) : Fact Nat := .other n

def chainStep (n : Nat) (children : List (Fact Nat)) : Step Nat where
  expected := atom n
  rule := .other 0
  children := children
  args := []
  ensureChildren := false
  checked := true
  assume_ok h := Rule.noConfusion h
  symm_ok h := Rule.noConfusion h

lemma same_atom {f : Fact Nat} (h : Same (atom n) f) : f = atom n := by
  rcases h with rfl | h
  · rfl
  · cases h

/-- The first formula is concluded from the second one, which is concluded later. -/
theorem getProofFor_linked_chain :
    let ops := [Op.addStep (chainStep 0 [atom 1]), .addStep (chainStep 1 [])]
    let pf := (run (State.empty (atom 0)) ops).getProofFor (atom 0)
    (pf.2.heap pf.1).proven = atom 0 ∧
      ∀ n, pf.2.Reach pf.1 n → ¬ TransGen pf.2.Child n n ∧ NodeOk (stepsOf ops) pf.2 n ∧
        ((pf.2.heap n).rule = .assume → pf.2.hasStep (pf.2.heap n).proven = false) := by
  refine getProofFor_linked ?_ ?_ (atom 0)
  · refine acyclic_of_rank (fun f => if f = atom 0 then 1 else 0) fun s hs f g hf c hc hg => ?_
    change s ∈ [chainStep 0 [atom 1], chainStep 1 []] at hs
    simp only [mem_cons, List.not_mem_nil, or_false] at hs
    rcases hs with rfl | rfl
    · cases mem_singleton.1 hc
      rw [same_atom hf, same_atom hg]
      decide
    · cases hc
  · refine ⟨fun s hs => ?_, fun s hs => ?_, trivial⟩
    · cases hs
      intro _ _ _ g n l _ hg
      cases hg
    · cases hs
      intro _ _ _ g n l _ _ c hc
      cases hc

/-- The second formula is concluded in a context that is popped, and its premise is proven after
that: the proof of the first formula still assumes the premise. -/
theorem getProofFor_missed :
    let ops := [Op.addStep (chainStep 0 [atom 1]), .push, .addStep (chainStep 1 [atom 2]), .pop,
      .addStep (chainStep 2 [])]
    let pf := (run (State.empty (atom 0)) ops).getProofFor (atom 0)
    Acyclic (stepsOf ops) ∧ ∃ p, pf.2.Reach pf.1 p ∧ (pf.2.heap p).rule = .assume ∧
      pf.2.hasStep (pf.2.heap p).proven = true := by
  refine ⟨?_, 2, ?_, by decide, by decide⟩
  · refine acyclic_of_rank (fun f => if f = atom 0 then 2 else if f = atom 1 then 1 else 0)
      fun s hs f g hf c hc hg => ?_
    change s ∈ [chainStep 0 [atom 1], chainStep 1 [atom 2], chainStep 2 []] at hs
    simp only [mem_cons, List.not_mem_nil, or_false] at hs
    rcases hs with rfl | rfl | rfl
    · cases mem_singleton.1 hc
      rw [same_atom hf, same_atom hg]
      decide
    · cases mem_singleton.1 hc
      rw [same_atom hf, same_atom hg]
      decide
    · cases hc
  · refine ReflTransGen.head (b := 0) ?_ (.single ?_)
    · change 0 ∈ _
      decide
    · change 2 ∈ _
      decide

end EthosCpc.Cvc5.Cdp
