import EthosCpc.Cvc5.ProofNodeManager

/-!
# When `mkScope` closes and minimizes

The leaves that `mkScope` overwrites still prove what they proved, and the
result has no free assumptions.  With minimization the set of used assumptions
also gets the formulas that are discharged because they rewrite to true, so
that they may end up as arguments of the `SCOPE`, and a leaf that is connected
to an argument may be closed by a `SCOPE` further down.
-/

namespace EthosCpc.Cvc5.ProofNodes

open Nat (lt_of_lt_of_le)
open Relation
open List (mem_cons mem_dedup not_mem_nil)
open Function (update update_of_ne update_self)

namespace Env

variable {env : Env} {h : Heap Node} {a m : Node} {ac : List Node}

/-! ## The checks -/

lemma symmConclusion_of_getSymmFact (hm : getSymmFact a = some m) : symmConclusion m = some a := by
  unfold getSymmFact at hm
  split at hm
  · split at hm
    · cases hm
    · cases hm
      rfl
  · split at hm
    · cases hm
    · cases hm
      rfl
  · cases hm

lemma conclusion_intro (htrivial : env.rewrite a = .constBoolean true) :
    env.conclusion .macroSrPredIntro [] [a] = some a := by
  have htrue : env.rewrite (.constBoolean true) = .constBoolean true := by
    calc env.rewrite (.constBoolean true) = env.rewrite (env.rewrite a) := by rw [htrivial]
      _ = .constBoolean true := by rw [env.rewrite_rewrite, htrivial]
  refine if_pos ?_
  rw [htrivial, env.getOriginalForm_true, htrue]

lemma rewrite_of_acrFind (hm : env.acrFind ac a = some m) : env.rewrite m = a :=
  of_decide_eq_true (List.find?_some (p := fun acc => decide (env.rewrite acc = a)) hm)

lemma mem_of_acrFind (hm : env.acrFind ac a = some m) : m ∈ ac :=
  (env.hashOrder_perm ac).mem_iff.1 (List.mem_reverse.1 (List.mem_of_find?_eq_some hm))

variable {args : List Node} {id : ProofRule} {children : List Nat}

lemma checkInternal_of_conclusion
    (hconc : env.conclusion id (children.map fun c => (h.node c).proven) args = some a) :
    env.checkInternal h id children args (some a) = some a := by
  unfold checkInternal
  dsimp only
  split
  · rfl
  · rw [hconc]
    exact if_pos rfl

lemma mkNode_of_conclusion
    (hconc : env.conclusion id (children.map fun c => (h.node c).proven) args = some a) :
    env.mkNode h id children args (some a) =
      some (h.size, ⟨h.size + 1, update h.node h.size ⟨id, children, args, a⟩⟩) := by
  unfold mkNode
  rw [checkInternal_of_conclusion hconc]
  rfl

lemma updateNode_of_conclusion {pn : Nat}
    (hconc : env.conclusion id (children.map fun c => (h.node c).proven) args = some a)
    (hproven : (h.node pn).proven = a) :
    env.updateNode h pn id children args =
      some { h with node := update h.node pn ⟨id, children, args, a⟩ } := by
  unfold updateNode
  rw [hproven, checkInternal_of_conclusion hconc]
  exact if_pos rfl

/-- All leaves of an assumption are overwritten. -/
lemma updateNodes_of_conclusion (pfs : List Nat)
    (hconc : env.conclusion id (children.map fun c => (h.node c).proven) args = some a)
    (hproven : ∀ pn ∈ pfs, (h.node pn).proven = a) :
    ∃ h', env.updateNodes h pfs id children args = some h' ∧ h'.size = h.size ∧
      (∀ n, n ∉ pfs → h'.node n = h.node n) ∧
      ∀ n ∈ pfs, h'.node n = ⟨id, children, args, a⟩ := by
  induction pfs generalizing h with
  | nil => exact ⟨h, rfl, rfl, fun _ _ => rfl, fun n hn => absurd hn not_mem_nil⟩
  | cons pn pfs ih =>
    obtain ⟨h1, hh1⟩ : ∃ h1 : Heap Node,
        h1 = { h with node := update h.node pn ⟨id, children, args, a⟩ } := ⟨_, rfl⟩
    have hnode : h1.node = update h.node pn ⟨id, children, args, a⟩ := by rw [hh1]
    have hkeep : ∀ n, (h1.node n).proven = (h.node n).proven := by
      intro n
      rw [hnode]
      by_cases hn : n = pn
      · subst hn
        rw [update_self]
        exact (hproven n (.head _)).symm
      · rw [update_of_ne hn]
    obtain ⟨h', hres, hsize, hother, hpfs⟩ := ih (h := h1) (by simpa only [hkeep] using hconc)
      fun n hn => (hkeep n).trans (hproven n (List.mem_cons_of_mem pn hn))
    have hstep := updateNode_of_conclusion hconc (hproven pn (.head _))
    refine ⟨h', ?_, by rw [hsize, hh1], ?_, ?_⟩
    · unfold updateNodes at hres ⊢
      rw [List.foldlM_cons, hstep, ← hh1]
      exact hres
    · intro n hn
      rw [mem_cons, not_or] at hn
      rw [hother n hn.2, hnode, update_of_ne hn.1]
    intro n hn
    by_cases hmem : n ∈ pfs
    · exact hpfs n hmem
    cases mem_cons.1 hn with
    | inl heq => rw [hother n hmem, hnode, heq, update_self]
    | inr hmem' => exact absurd hmem' hmem

/-! ## What happens to a leaf -/

def Cover.target : Cover → Option Node
  | .symm m | .transform m => some m
  | _ => none

/-- What a free assumption adds to the set of used assumptions. -/
def Cover.used (a : Node) : Cover → Option Node
  | .covered | .trivial => some a
  | .symm m | .transform m => some m
  | .unmatched => none

lemma cover_cases (env : Env) (ac : List Node) (a : Node) : (env.cover ac a = .covered ∧ a ∈ ac) ∨
    (a ∉ ac ∧ ∃ m ∈ ac, env.cover ac a = .symm m ∧ getSymmFact a = some m) ∨
    (a ∉ ac ∧ env.cover ac a = .trivial ∧ env.rewrite a = .constBoolean true) ∨
    (a ∉ ac ∧ ∃ m ∈ ac, env.cover ac a = .transform m ∧ env.rewrite m = env.rewrite a) ∨
    (a ∉ ac ∧ env.cover ac a = .unmatched) := by
  unfold cover
  split
  · exact .inl ⟨rfl, ‹_›⟩
  rename_i hmem
  refine .inr ?_
  split
  · rename_i hsymm
    obtain ⟨hsymm, hm⟩ := Option.filter_eq_some_iff.1 hsymm
    exact .inl ⟨hmem, _, of_decide_eq_true hm, rfl, hsymm⟩
  refine .inr ?_
  split
  · exact .inl ⟨hmem, rfl, ‹_›⟩
  refine .inr ?_
  split
  · rename_i hfind
    exact .inl ⟨hmem, _, mem_of_acrFind hfind, rfl, rewrite_of_acrFind hfind⟩
  · exact .inr ⟨hmem, rfl⟩

/-- Free assumptions are connected to assumptions that were given. -/
lemma mem_of_target (hm : (env.cover ac a).target = some m) : m ∈ ac := by
  rcases cover_cases env ac a with ⟨hcov, -⟩ | ⟨-, m', hmem, hcov, -⟩ | ⟨-, hcov, -⟩ |
    ⟨-, m', hmem, hcov, -⟩ | ⟨-, hcov⟩
  · rw [hcov] at hm
    cases hm
  · rw [hcov] at hm
    cases hm
    exact hmem
  · rw [hcov] at hm
    cases hm
  · rw [hcov] at hm
    cases hm
    exact hmem
  · rw [hcov] at hm
    cases hm

lemma cover_of_mem (ha : a ∈ ac) : env.cover ac a = .covered := if_pos ha

/-- A leaf of `h₀` has become a step from a new assumption `m`. -/
def Redirects (h₀ h : Heap Node) (n : Nat) (m : Node) : Prop :=
  (h.node n).rule ≠ .assume ∧ (h.node n).rule ≠ .scope ∧ ∃ p, (h.node n).children = [p] ∧
    h₀.size ≤ p ∧ p < h.size ∧ (h.node p).children = [] ∧ h.Leaf p m

/-- A leaf of `h₀` in a later heap, depending on how its assumption is dealt with. -/
def Redirected (h₀ h : Heap Node) (n : Nat) : Cover → Prop
  | .covered | .unmatched => h.node n = h₀.node n
  | .trivial => (h.node n).rule = .macroSrPredIntro ∧ (h.node n).children = []
  | .symm m | .transform m => Redirects h₀ h n m

/-- From `h₀` to `h` the leaves in `done` have been dealt with. -/
structure Connected (env : Env) (ac : List Node) (h₀ : Heap Node) (done : Node → Nat → Prop)
    (h : Heap Node) : Prop where
  size_le : h₀.size ≤ h.size
  other : ∀ n < h₀.size, (∀ f, ¬ done f n) → h.node n = h₀.node n
  leaf : ∀ n < h₀.size, ∀ f, done f n → Redirected h₀ h n (env.cover ac f)
  proven : ∀ n < h₀.size, (h.node n).proven = (h₀.node n).proven

lemma Redirects.mono {h₀ h h' : Heap Node} {n : Nat} (hr : Redirects h₀ h n m)
    (hsize : h.size ≤ h'.size) (hn : h'.node n = h.node n)
    (hfresh : ∀ p, h₀.size ≤ p → p < h.size → h'.node p = h.node p) : Redirects h₀ h' n m := by
  obtain ⟨hassume, hscope, p, hp, hle, hlt, hchild, hleaf⟩ := hr
  have hpp := hfresh p hle hlt
  refine ⟨hn ▸ hassume, hn ▸ hscope, p, hn ▸ hp, hle, Nat.lt_of_lt_of_le hlt hsize,
    hpp ▸ hchild, ?_⟩
  unfold Heap.Leaf
  rw [hpp]
  exact hleaf

/-- A later heap keeps what a leaf has become, if the leaf and its child stay. -/
lemma Redirected.mono {h₀ h h' : Heap Node} {n : Nat} {c : Cover} (hr : Redirected h₀ h n c)
    (hsize : h.size ≤ h'.size) (hn : h'.node n = h.node n)
    (hfresh : ∀ p, h₀.size ≤ p → p < h.size → h'.node p = h.node p) : Redirected h₀ h' n c := by
  cases c with
  | covered => exact hn.trans hr
  | unmatched => exact hn.trans hr
  | trivial =>
    change (h'.node n).rule = _ ∧ (h'.node n).children = []
    rw [hn]
    exact hr
  | symm m => exact Redirects.mono hr hsize hn hfresh
  | transform m => exact Redirects.mono hr hsize hn hfresh

variable {done : Node → Nat → Prop} {ns : List Nat}

lemma Connected.step {h₀ h h' : Heap Node}
    (hc : Connected env ac h₀ done h) (hdone : ∀ f n, done f n → h₀.Leaf n f)
    (hns : ∀ n ∈ ns, h₀.Leaf n a) (hold : ∀ n ∈ ns, n < h₀.size) (hsize : h.size ≤ h'.size)
    (hother : ∀ n < h.size, n ∉ ns → h'.node n = h.node n)
    (hleaf : ∀ n ∈ ns, Redirected h₀ h' n (env.cover ac a))
    (hproven : ∀ n ∈ ns, (h'.node n).proven = (h₀.node n).proven) :
    Connected env ac h₀ (fun f n => done f n ∨ (f = a ∧ n ∈ ns)) h' where
  size_le := Nat.le_trans hc.size_le hsize
  other n hn hnot := by
    have hnns : n ∉ ns := fun hmem => hnot a (.inr ⟨rfl, hmem⟩)
    rw [hother n (Nat.lt_of_lt_of_le hn hc.size_le) hnns]
    exact hc.other n hn fun f hf => hnot f (.inl hf)
  leaf n hn f hf := by
    by_cases hmem : n ∈ ns
    · have hfa : f = a := by
        cases hf with
        | inl hf => exact (hdone f n hf).2.symm.trans (hns n hmem).2
        | inr hf => exact hf.1
      exact hfa ▸ hleaf n hmem
    have hf := hf.resolve_right fun h => hmem h.2
    refine (hc.leaf n hn f hf).mono hsize (hother n (Nat.lt_of_lt_of_le hn hc.size_le) hmem) ?_
    intro p hle hlt
    exact hother p hlt fun hp => Nat.lt_irrefl _ (Nat.lt_of_lt_of_le (hold p hp) hle)
  proven n hn := by
    by_cases hmem : n ∈ ns
    · exact hproven n hmem
    · rw [hother n (Nat.lt_of_lt_of_le hn hc.size_le) hmem]
      exact hc.proven n hn

/-- The leaves of an assumption are connected to a new assumption `m`. -/
lemma exists_redirect {h₀ : Heap Node}
    (hassume : id ≠ .assume) (hscope : id ≠ .scope) (hsize : h₀.size ≤ h.size)
    (hconc : env.conclusion id [m] args = some a) (hold : ∀ n ∈ ns, n < h₀.size)
    (hproven : ∀ n ∈ ns, (h.node n).proven = a) :
    ∃ p h1 h', env.mkAssume h m = some (p, h1) ∧ env.updateNodes h1 ns id [p] args = some h' ∧
      h.size ≤ h'.size ∧ (∀ n < h.size, n ∉ ns → h'.node n = h.node n) ∧
      (∀ n ∈ ns, Redirects h₀ h' n m) ∧ ∀ n ∈ ns, (h'.node n).proven = a := by
  obtain ⟨h1, hh1⟩ : ∃ h1 : Heap Node,
      h1 = ⟨h.size + 1, update h.node h.size ⟨.assume, [], [m], m⟩⟩ := ⟨_, rfl⟩
  have hmk : env.mkAssume h m = some (h.size, h1) := by
    rw [hh1]
    exact mkNode_of_conclusion rfl
  have hself : h1.node h.size = ⟨.assume, [], [m], m⟩ := by
    rw [hh1]
    exact update_self _ _ _
  have hlow : ∀ n < h.size, h1.node n = h.node n := by
    intro n hn
    rw [hh1]
    exact update_of_ne (Nat.ne_of_lt hn) _ _
  have hlt : ∀ n ∈ ns, n < h.size := fun n hn => Nat.lt_of_lt_of_le (hold n hn) hsize
  have hchecked : env.conclusion id ([h.size].map fun c => (h1.node c).proven) args = some a := by
    rw [List.map_singleton, hself]
    exact hconc
  obtain ⟨h', hres, hsize', hother, hleaf⟩ := updateNodes_of_conclusion ns hchecked fun n hn => by
    rw [hlow n (hlt n hn)]
    exact hproven n hn
  have hsize1 : h'.size = h.size + 1 := by rw [hsize', hh1]
  refine ⟨h.size, h1, h', hmk, hres, by omega, ?_, ?_, ?_⟩
  · intro n hn hnot
    rw [hother n hnot, hlow n hn]
  · intro n hn
    have hnot : h.size ∉ ns := fun hmem => Nat.lt_irrefl _ (hlt _ hmem)
    have hp : h'.node h.size = ⟨.assume, [], [m], m⟩ := (hother _ hnot).trans hself
    unfold Redirects Heap.Leaf
    rw [hleaf n hn]
    refine ⟨hassume, hscope, h.size, rfl, hsize, by omega, ?_, ?_⟩
    · rw [hp]
    · rw [hp]
      exact ⟨rfl, rfl⟩
  · intro n hn
    rw [hleaf n hn]

lemma exists_connect {h₀ : Heap Node}
    (hc : Connected env ac h₀ done h) (hdone : ∀ f n, done f n → h₀.Leaf n f)
    (hns : ∀ n ∈ ns, h₀.Leaf n a) (hold : ∀ n ∈ ns, n < h₀.size)
    (hproven : ∀ n ∈ ns, (h₀.node n).proven = a) (hcover : env.cover ac a ≠ .unmatched)
    (ensureClosed : Bool) (acu : List Node) :
    ∃ h' u, (env.cover ac a).used a = some u ∧
      env.connect ac ensureClosed (h, acu) (a, ns) = some (h', acu.insert u) ∧
      Connected env ac h₀ (fun f n => done f n ∨ (f = a ∧ n ∈ ns)) h' := by
  have hlt : ∀ n ∈ ns, n < h.size := fun n hn => Nat.lt_of_lt_of_le (hold n hn) hc.size_le
  have hproven' : ∀ n ∈ ns, (h.node n).proven = a :=
    fun n hn => (hc.proven n (hold n hn)).trans (hproven n hn)
  rcases cover_cases env ac a with ⟨hcov, -⟩ | ⟨-, m, -, hcov, hsymm⟩ | ⟨-, hcov, htrivial⟩ |
    ⟨-, m, -, hcov, hrw⟩ | ⟨-, hcov⟩
  · refine ⟨h, a, by rw [hcov]; rfl, by unfold connect; rw [hcov], ?_⟩
    refine hc.step hdone hns hold (Nat.le_refl _) (fun _ _ _ => rfl) ?_ fun n hn =>
      hc.proven n (hold n hn)
    intro n hn
    by_cases hex : ∃ f, done f n
    · obtain ⟨f, hf⟩ := hex
      have hfa : f = a := (hdone f n hf).2.symm.trans (hns n hn).2
      exact hfa ▸ hc.leaf n (hold n hn) f hf
    · rw [hcov]
      exact hc.other n (hold n hn) fun f hf => hex ⟨f, hf⟩
  · have hconc : env.conclusion .symm [m] [] = some a := symmConclusion_of_getSymmFact hsymm
    obtain ⟨p, h1, h', hmk, hres, hsize, hother, hleaf, hpr⟩ :=
      exists_redirect (by decide) (by decide) hc.size_le hconc hold hproven'
    refine ⟨h', m, by rw [hcov]; rfl, ?_, ?_⟩
    · unfold connect
      rw [hcov]
      dsimp only
      rw [hmk]
      change (env.updateNodes h1 ns .symm [p] [] >>= _) = _
      rw [hres]
      rfl
    · exact hc.step hdone hns hold hsize hother (fun n hn => hcov ▸ hleaf n hn) fun n hn =>
        (hpr n hn).trans (hproven n hn).symm
  · have hconc : env.conclusion .macroSrPredIntro ([].map fun c => (h.node c).proven) [a] = some a :=
      conclusion_intro htrivial
    obtain ⟨h', hres, hsize, hother, hleaf⟩ := updateNodes_of_conclusion ns hconc hproven'
    refine ⟨h', a, by rw [hcov]; rfl, ?_, ?_⟩
    · unfold connect
      rw [hcov]
      dsimp only
      rw [hres]
      rfl
    refine hc.step hdone hns hold (Nat.le_of_eq hsize.symm) (fun n _ hn => hother n hn) ?_ ?_
    · intro n hn
      rw [hcov]
      unfold Redirected
      rw [hleaf n hn]
      exact ⟨rfl, rfl⟩
    intro n hn
    rw [hleaf n hn]
    exact (hproven n hn).symm
  · have hconc : env.conclusion .macroSrPredTransform [m] [a] = some a := if_pos hrw
    obtain ⟨p, h1, h', hmk, hres, hsize, hother, hleaf, hpr⟩ :=
      exists_redirect (by decide) (by decide) hc.size_le hconc hold hproven'
    refine ⟨h', m, by rw [hcov]; rfl, ?_, ?_⟩
    · unfold connect
      rw [hcov]
      dsimp only
      rw [hmk]
      change (env.updateNodes h1 ns .macroSrPredTransform [p] [a] >>= _) = _
      rw [hres]
      rfl
    · exact hc.step hdone hns hold hsize hother (fun n hn => hcov ▸ hleaf n hn) fun n hn =>
        (hpr n hn).trans (hproven n hn).symm
  · exact absurd hcov hcover

lemma connect_of_unmatched {st : Heap Node × List Node} {fa : Node × List Nat}
    (hcov : env.cover ac fa.1 = .unmatched) : env.connect ac true st fa = none := by
  unfold connect
  rw [hcov]
  rfl

/-! ## The loop over the free assumptions -/

/-- The entries to come are free assumptions of the original proof. -/
structure EntriesOk (h₀ : Heap Node) (famap : AMap Node) : Prop where
  leaf : ∀ f n, famap.Has f n → h₀.Leaf n f
  old : ∀ f n, famap.Has f n → n < h₀.size
  proven : ∀ f n, famap.Has f n → (h₀.node n).proven = f

/-- A run of the loop that comes to its end. -/
lemma connect_all {h₀ h h' : Heap Node} {famap : AMap Node}
    {acu acu' : List Node} (hres : famap.foldlM (env.connect ac true) (h, acu) = some (h', acu'))
    (hc : Connected env ac h₀ done h) (hdone : ∀ f n, done f n → h₀.Leaf n f)
    (hok : EntriesOk h₀ famap) (hnodup : acu.Nodup) :
    (∀ e ∈ famap, env.cover ac e.1 ≠ .unmatched) ∧
      Connected env ac h₀ (fun f n => done f n ∨ famap.Has f n) h' ∧ acu'.Nodup ∧
      ∀ u, u ∈ acu' ↔ u ∈ acu ∨ ∃ e ∈ famap, (env.cover ac e.1).used e.1 = some u := by
  induction famap generalizing done h acu with
  | nil =>
    cases hres
    refine ⟨fun e he => absurd he not_mem_nil, ?_, hnodup, ?_⟩
    · refine ⟨hc.size_le, fun n hn hnot => hc.other n hn fun f hf => hnot f (.inl hf), ?_, hc.proven⟩
      exact fun n hn f hf => hc.leaf n hn f (hf.resolve_right AMap.has_nil)
    · exact fun u => ⟨.inl, fun hu => hu.resolve_right fun ⟨e, he, _⟩ => not_mem_nil he⟩
  | cons e famap ih =>
    obtain ⟨b, ns⟩ := e
    have hhead : ∀ n ∈ ns, AMap.Has ((b, ns) :: famap) b n :=
      fun n hn => AMap.has_cons.2 (.inl ⟨rfl, hn⟩)
    have htail : ∀ f n, AMap.Has famap f n → AMap.Has ((b, ns) :: famap) f n :=
      fun f n hn => AMap.has_cons.2 (.inr hn)
    rw [List.foldlM_cons] at hres
    obtain ⟨st, hstep, hres⟩ := bind_inv hres
    have hcover : env.cover ac b ≠ .unmatched := by
      intro hcov
      rw [connect_of_unmatched hcov] at hstep
      cases hstep
    obtain ⟨h1, u, hused, hconnect, hc1⟩ := exists_connect hc hdone
      (fun n hn => hok.leaf b n (hhead n hn)) (fun n hn => hok.old b n (hhead n hn))
      (fun n hn => hok.proven b n (hhead n hn)) hcover true acu
    rw [hconnect] at hstep
    cases hstep
    have hdone1 : ∀ f n, done f n ∨ (f = b ∧ n ∈ ns) → h₀.Leaf n f := by
      intro f n hf
      cases hf with
      | inl hf => exact hdone f n hf
      | inr hf => exact hf.1 ▸ hok.leaf b n (hhead n hf.2)
    obtain ⟨hall, hc', hnodup', hmem⟩ := ih hres hc1 hdone1
      ⟨fun f n hn => hok.leaf f n (htail f n hn), fun f n hn => hok.old f n (htail f n hn),
        fun f n hn => hok.proven f n (htail f n hn)⟩ hnodup.insert
    refine ⟨?_, ?_, hnodup', ?_⟩
    · intro e he
      cases he with
      | head => exact hcover
      | tail _ he => exact hall e he
    · simpa only [AMap.has_cons, or_assoc] using hc'
    intro v
    rw [hmem, List.mem_insert_iff]
    simp only [mem_cons, exists_eq_or_imp, hused, Option.some.injEq]
    constructor
    · rintro ((rfl | hv) | hv)
      · exact .inr (.inl rfl)
      · exact .inl hv
      · exact .inr (.inr hv)
    rintro (hv | rfl | hv)
    · exact .inl (.inr hv)
    · exact .inl (.inl rfl)
    · exact .inr hv

/-! ## Free assumptions after the loop -/

/-- `m` is free in the body after the loop: it was free before, or a leaf that is connected to it
is not below a `SCOPE` that closes `m`. -/
def Exposed (env : Env) (ac : List Node) (h : Heap Node) (pf : Nat) (m : Node) : Prop :=
  h.Free pf m ∨ ∃ a n, h.FreeAt pf a n ∧ (env.cover ac a).target = some m ∧ h.OpenPath m pf n

section Body

variable {h₀ : Heap Node} {pf : Nat}

variable {f : Node}

variable {n v : Nat}

lemma lt_of_openPath (hwf : h₀.Wf) (hv : v < h₀.size)
    (hpath : h₀.OpenPath f v n) : n < h₀.size := by
  induction hpath with
  | refl => exact hv
  | tail _ hedge ih => exact hwf.lt _ ih _ hedge.1

variable (hc : Connected env ac h₀ (fun f n => h₀.FreeAt pf f n) h)

include hc

/-- An old node is kept, or it is a leaf that is justified or connected. -/
lemma node_cases (hv : v < h₀.size) : h.node v = h₀.node v ∨
      ((h.node v).rule = .macroSrPredIntro ∧ (h.node v).children = []) ∨
      ∃ a m, h₀.FreeAt pf a v ∧ (env.cover ac a).target = some m ∧ Redirects h₀ h v m := by
  by_cases hfree : ∃ a, h₀.FreeAt pf a v
  swap
  · exact .inl (hc.other v hv fun a ha => hfree ⟨a, ha⟩)
  obtain ⟨a, ha⟩ := hfree
  have hr := hc.leaf v hv a ha
  cases hcov : env.cover ac a with
  | covered =>
    rw [hcov] at hr
    exact .inl hr
  | unmatched =>
    rw [hcov] at hr
    exact .inl hr
  | trivial =>
    rw [hcov] at hr
    exact .inr (.inl hr)
  | symm m =>
    rw [hcov] at hr
    exact .inr (.inr ⟨a, m, ha, by rw [hcov]; rfl, hr⟩)
  | transform m =>
    rw [hcov] at hr
    exact .inr (.inr ⟨a, m, ha, by rw [hcov]; rfl, hr⟩)

lemma openEdge_of_old (hwf : h₀.Wf) {c : Nat} (hn : n < h₀.size)
    (hedge : h₀.OpenEdge f n c) : h.OpenEdge f n c := by
  have hr : ∀ g, ¬ h₀.FreeAt pf g n := by
    intro g hg
    have hmem := hedge.1
    rw [(hwf.assume n hg.2.1).1] at hmem
    cases hmem
  unfold Heap.OpenEdge
  rw [hc.other n hn hr]
  exact hedge

lemma openPath_of_old (hwf : h₀.Wf) (hv : v < h₀.size)
    (hpath : h₀.OpenPath f v n) : h.OpenPath f v n := by
  induction hpath using ReflTransGen.head_induction_on with
  | refl => exact .refl
  | head hedge _ ih => exact .head (openEdge_of_old hc hwf hv hedge) (ih (hwf.lt _ hv _ hedge.1))

/-- A free leaf on the new heap is an old leaf that was kept, or hangs below one that was
connected. -/
lemma freeAt_cases (hwf : h₀.Wf) (hv : v < h₀.size) (hn : h.FreeAt v f n) :
    ∃ l < h₀.size, h₀.OpenPath f v l ∧ ((h₀.Leaf l f ∧ h.node l = h₀.node l) ∨
        ∃ a, h₀.FreeAt pf a l ∧ (env.cover ac a).target = some f) := by
  obtain ⟨hpath, hleaf⟩ := hn
  induction hpath using ReflTransGen.head_induction_on with
  | refl =>
    rcases node_cases hc hv with hkept | ⟨hr, -⟩ | ⟨a, m, -, -, hr, -⟩
    · refine ⟨n, hv, .refl, .inl ⟨?_, hkept⟩⟩
      unfold Heap.Leaf at hleaf ⊢
      rw [← hkept]
      exact hleaf
    · cases hr.symm.trans hleaf.1
    · exact absurd hleaf.1 hr
  | @head v c hedge hrest ih =>
    rcases node_cases hc hv with hkept | ⟨-, hchild⟩ | ⟨a, m, ha, hm, -, -, p, hchild, -, -, hp, hpm⟩
    · unfold Heap.OpenEdge at hedge
      rw [hkept] at hedge
      obtain ⟨l, hl, hpath, hcase⟩ := ih (hwf.lt v hv c hedge.1)
      exact ⟨l, hl, .head hedge hpath, hcase⟩
    · have hmem := hedge.1
      rw [hchild] at hmem
      cases hmem
    have hmem := hedge.1
    rw [hchild, List.mem_singleton] at hmem
    subst hmem
    have hend : c = n := by
      cases ReflTransGen.cases_head hrest with
      | inl heq => exact heq
      | inr hnext =>
        obtain ⟨d, hd, -⟩ := hnext
        have hmem := hd.1
        rw [hp] at hmem
        cases hmem
    subst hend
    refine ⟨v, hv, .refl, .inr ⟨a, ha, ?_⟩⟩
    rw [hm, ← hpm.2, hleaf.2]

lemma free_iff (hwf : h₀.Wf) (hpf : pf < h₀.size)
    (hall : ∀ f, h₀.Free pf f → env.cover ac f ≠ .unmatched) {f : Node} :
    h.Free pf f ↔ f ∈ ac ∧ Exposed env ac h₀ pf f := by
  constructor
  · rintro ⟨n, hn⟩
    obtain ⟨l, hl, hpath, hcase⟩ := freeAt_cases hc hwf hpf hn
    cases hcase with
    | inl hcase =>
      obtain ⟨hleaf, hkept⟩ := hcase
      have hfree : h₀.FreeAt pf f l := ⟨hpath, hleaf⟩
      have hr := hc.leaf l hl f hfree
      rcases cover_cases env ac f with ⟨-, hmem⟩ | ⟨-, m, -, hcov, -⟩ | ⟨-, hcov, -⟩ |
        ⟨-, m, -, hcov, -⟩ | ⟨-, hcov⟩
      · exact ⟨hmem, .inl ⟨l, hfree⟩⟩
      · rw [hcov] at hr
        exact absurd (hkept ▸ hleaf.1) hr.1
      · rw [hcov] at hr
        have hassume : (h.node l).rule = .assume := hkept ▸ hleaf.1
        cases hr.1.symm.trans hassume
      · rw [hcov] at hr
        exact absurd (hkept ▸ hleaf.1) hr.1
      · exact absurd hcov (hall f ⟨l, hfree⟩)
    | inr hcase =>
      obtain ⟨a, ha, hm⟩ := hcase
      exact ⟨mem_of_target hm, .inr ⟨a, l, ha, hm, hpath⟩⟩
  rintro ⟨hmem, hexposed⟩
  cases hexposed with
  | inl hfree =>
    obtain ⟨l, hl⟩ := hfree
    have hlt := lt_of_openPath hwf hpf hl.1
    have hr := hc.leaf l hlt f hl
    rw [cover_of_mem hmem] at hr
    refine ⟨l, openPath_of_old hc hwf hpf hl.1, ?_⟩
    unfold Heap.Leaf
    rw [show h.node l = h₀.node l from hr]
    exact hl.2
  | inr hfree =>
    obtain ⟨a, l, ha, hm, hpath⟩ := hfree
    have hlt := lt_of_openPath hwf hpf hpath
    have hr := hc.leaf l hlt a ha
    have hredirects : Redirects h₀ h l f := by
      cases hcov : env.cover ac a with
      | symm m =>
        rw [hcov] at hr hm
        cases hm
        exact hr
      | transform m =>
        rw [hcov] at hr hm
        cases hm
        exact hr
      | covered => rw [hcov] at hm; cases hm
      | trivial => rw [hcov] at hm; cases hm
      | unmatched => rw [hcov] at hm; cases hm
    obtain ⟨_, hscope, p, hchild, _, _, _, hleaf⟩ := hredirects
    have hedge : h.OpenEdge f l p :=
      ⟨hchild ▸ List.mem_singleton_self p, fun hclosed => hscope hclosed.1⟩
    exact ⟨p, (openPath_of_old hc hwf hpf hpath).tail hedge, hleaf⟩

end Body

/-! ## The whole of `mkScope` -/

/-- What the loop has done about the body. -/
structure BodyOk (env : Env) (ac : List Node) (h₀ : Heap Node) (pf : Nat) (h : Heap Node)
    (acu : List Node) : Prop where
  connected : Connected env ac h₀ (fun f n => h₀.FreeAt pf f n) h
  matched : ∀ f, h₀.Free pf f → env.cover ac f ≠ .unmatched
  nodup : acu.Nodup
  mem_acu : ∀ u, u ∈ acu ↔ ∃ a, h₀.Free pf a ∧ (env.cover ac a).used a = some u

section Scope

variable {h₀ : Heap Node} {k pf pn : Nat} {assumps assumps' acu : List Node} {doMinimize : Bool}
  {expected : Option Node} {h' : Heap Node} {famap : AMap Node}

lemma entriesOk (hwf : h₀.Wf) (hpf : pf < h₀.size) (hmap : MapOk h₀ pf famap) :
    EntriesOk h₀ famap where
  leaf f n hn := ((hmap.has_iff f n).1 hn).2
  old f n hn := lt_of_openPath hwf hpf ((hmap.has_iff f n).1 hn).1
  proven f n hn := by
    obtain ⟨_, hr, hf⟩ := (hmap.has_iff f n).1 hn
    rw [ProofNode.assumed, (hwf.assume n hr).2] at hf
    exact hf

lemma connected_start : Connected env ac h₀ (fun _ _ => False) h₀ where
  size_le := Nat.le_refl _
  other _ _ _ := rfl
  leaf _ _ _ hf := hf.elim
  proven _ _ := rfl

lemma bodyOk (hwf : h₀.Wf) (hpf : pf < h₀.size) (hmap : MapOk h₀ pf famap)
    (hres : famap.foldlM (env.connect ac true) (h₀, []) = some (h, acu)) :
    BodyOk env ac h₀ pf h acu := by
  obtain ⟨hall, hc, hnodup, hmem⟩ := connect_all hres connected_start (fun _ _ hf => hf.elim)
    (entriesOk hwf hpf hmap) List.nodup_nil
  refine ⟨by simpa only [false_or, hmap.has_iff] using hc, ?_, hnodup, ?_⟩
  · intro f hf hcov
    obtain ⟨e, he, hecov⟩ :=
      (hmap.exists_key (P := fun f => env.cover ac f = .unmatched)).2 ⟨f, hf, hcov⟩
    exact hall e he hecov
  intro u
  rw [hmem, or_iff_right not_mem_nil]
  exact hmap.exists_key (P := fun a => (env.cover ac a).used a = some u)

lemma mkScope_cases (hwf : h₀.Wf) (hpf : pf < h₀.size)
    (hres : env.mkScope k h₀ pf assumps true doMinimize expected = some (pn, assumps', h')) :
    ∃ h acu, BodyOk env assumps.dedup h₀ pf h acu ∧
      assumps' = env.scopeAssumps assumps assumps.dedup acu doMinimize ∧
      ((assumps' = [] ∧ pn = pf ∧ h' = h) ∨
        (assumps' ≠ [] ∧ pn = h.size ∧ h'.node = update h.node h.size
          ⟨.scope, [pf], assumps', scopeConclusion assumps' (h.node pf).proven⟩)) := by
  unfold mkScope at hres
  rw [if_neg (by simp)] at hres
  obtain ⟨famap, hfamap, hres⟩ := bind_inv hres
  obtain ⟨⟨h, acu⟩, hloop, hres⟩ := bind_inv hres
  refine ⟨h, acu, bodyOk hwf hpf (getFreeAssumptionsMap_ok hwf hfamap) hloop, ?_⟩
  dsimp only at hres
  split at hres
  · cases hres
    exact ⟨rfl, .inl ⟨‹_›, rfl, rfl⟩⟩
  rename_i hne
  obtain ⟨⟨pn, h1⟩, hmk, hres⟩ := bind_inv hres
  cases hres
  refine ⟨rfl, .inr ⟨hne, ?_⟩⟩
  have hconc : env.conclusion .scope ([pf].map fun c => (h.node c).proven)
      (env.scopeAssumps assumps assumps.dedup acu doMinimize) =
      some (scopeConclusion (env.scopeAssumps assumps assumps.dedup acu doMinimize)
        (h.node pf).proven) := by
    refine congrArg some ?_
    exact if_neg hne
  rw [mkNode_of_conclusion hconc] at hmk
  cases hmk
  exact ⟨rfl, rfl⟩

/-- The assumptions that are passed on: the used ones, or the given ones. -/
lemma scopeAssumps_cases (hnodup : acu.Nodup)
    (h : assumps' = env.scopeAssumps assumps assumps.dedup acu doMinimize) :
    assumps'.Nodup ∧
      ((doMinimize = true ∧ acu.length < assumps.dedup.length ∧ ∀ f, f ∈ assumps' ↔ f ∈ acu) ∨
        ((doMinimize = true → assumps.dedup.length ≤ acu.length) ∧
          ∀ f, f ∈ assumps' ↔ f ∈ assumps)) := by
  subst h
  unfold scopeAssumps
  split
  · rename_i hmin
    have hperm := env.hashOrder_perm acu
    exact ⟨hperm.nodup_iff.2 hnodup, .inl ⟨hmin.1, hmin.2, fun f => hperm.mem_iff⟩⟩
  rename_i hmin
  have hle : doMinimize = true → assumps.dedup.length ≤ acu.length :=
    fun hdo => Nat.le_of_not_lt fun hlt => hmin ⟨hdo, hlt⟩
  split
  · have hperm := env.hashOrder_perm assumps.dedup
    exact ⟨hperm.nodup_iff.2 assumps.nodup_dedup,
      .inr ⟨hle, fun f => hperm.mem_iff.trans mem_dedup⟩⟩
  rename_i hlen
  have heq : assumps.dedup = assumps :=
    assumps.dedup_sublist.eq_of_length_le (Nat.le_of_not_lt hlen)
  exact ⟨heq ▸ assumps.nodup_dedup, .inr ⟨hle, fun f => Iff.rfl⟩⟩

end Scope

section Sets

variable {h₀ : Heap Node} {pf : Nat} {acu : List Node}

lemma used_of_target {c : Cover} (hm : c.target = some m) : c.used a = some m := by
  cases c <;> first | exact hm | cases hm

lemma BodyOk.mem_acu_of_free (hb : BodyOk env ac h₀ pf h acu) (hwf : h₀.Wf) (hpf : pf < h₀.size)
    {f : Node} (hf : h.Free pf f) : f ∈ acu := by
  obtain ⟨hmem, hexposed⟩ := (free_iff hb.connected hwf hpf hb.matched).1 hf
  rw [hb.mem_acu]
  cases hexposed with
  | inl hfree => exact ⟨f, hfree, by rw [cover_of_mem hmem]; rfl⟩
  | inr hfree =>
    obtain ⟨a, n, ha, hm, _⟩ := hfree
    exact ⟨a, ⟨n, ha⟩, used_of_target hm⟩

lemma BodyOk.acu_cases (hb : BodyOk env ac h₀ pf h acu) {u : Node} (hu : u ∈ acu) :
    (u ∈ ac ∧ h₀.Free pf u) ∨ (∃ a, h₀.Free pf a ∧ (env.cover ac a).target = some u) ∨
      (u ∉ ac ∧ h₀.Free pf u ∧ env.cover ac u = .trivial) := by
  obtain ⟨a, ha, hused⟩ := (hb.mem_acu u).1 hu
  rcases cover_cases env ac a with ⟨hcov, hmem⟩ | ⟨-, m, -, hcov, -⟩ | ⟨hmem, hcov, -⟩ |
    ⟨-, m, -, hcov, -⟩ | ⟨-, hcov⟩
  · rw [hcov] at hused
    cases hused
    exact .inl ⟨hmem, ha⟩
  · rw [hcov] at hused
    cases hused
    exact .inr (.inl ⟨a, ha, by rw [hcov]; rfl⟩)
  · rw [hcov] at hused
    cases hused
    exact .inr (.inr ⟨hmem, ha, hcov⟩)
  · rw [hcov] at hused
    cases hused
    exact .inr (.inl ⟨a, ha, by rw [hcov]; rfl⟩)
  · exact absurd hcov (hb.matched a ha)

end Sets

/-- What `mkScope` is to achieve. -/
structure Closes (h₀ : Heap Node) (pf : Nat) (assumps : List Node) (doMinimize : Bool) (pn : Nat)
    (assumps' : List Node) (h : Heap Node) : Prop where
  scope : (pn = pf ∧ assumps' = []) ∨
    h.node pn = ⟨.scope, [pf], assumps', scopeConclusion assumps' (h₀.node pf).proven⟩
  closed : ∀ f, ¬ h.Free pn f
  nodup : assumps'.Nodup
  given : ∀ f ∈ assumps', f ∈ assumps
  minimal : doMinimize = true → ∀ f, f ∈ assumps' ↔ h.Free pf f
  proven : ∀ n < h₀.size, (h.node n).proven = (h₀.node n).proven

/-- No free assumption is trivially true and every one that is connected stays free, or all given
assumptions are free in the body. -/
def Minimizes (env : Env) (h : Heap Node) (pf : Nat) (assumps : List Node) : Prop :=
  (∀ a, h.Free pf a → env.cover assumps.dedup a ≠ .trivial ∧
    ∀ m, (env.cover assumps.dedup a).target = some m → Exposed env assumps.dedup h pf m) ∨
  ∀ m ∈ assumps, Exposed env assumps.dedup h pf m

section Main

variable {h₀ h' : Heap Node} {k pf pn : Nat} {assumps assumps' acu : List Node} {doMinimize : Bool}
  {expected : Option Node}

lemma free_body (hwf : h₀.Wf) (hpf : pf < h₀.size) (hb : BodyOk env ac h₀ pf h acu)
    (hnode : ∀ n < h.size, h'.node n = h.node n) {f : Node} : h'.Free pf f ↔ h.Free pf f := by
  have hle := hb.connected.size_le
  have hagree : ∀ n, h'.FreeAt pf f n ↔ h.FreeAt pf f n := by
    intro n
    refine Heap.freeAt_congr (P := fun v => v < h.size ∧ (v < h₀.size ∨ (h.node v).children = []))
      (fun v hv => hnode v hv.1) ?_ ⟨Nat.lt_of_lt_of_le hpf hle, .inl hpf⟩
    rintro v ⟨hv, hcase⟩ c hc
    cases hcase with
    | inl hold =>
      rcases node_cases hb.connected hold with hkept | ⟨-, hchild⟩ |
        ⟨a, m, -, -, -, -, p, hchild, -, hlt, hp, -⟩
      · rw [hkept] at hc
        have hlt := hwf.lt v hold c hc
        exact ⟨Nat.lt_of_lt_of_le hlt hle, .inl hlt⟩
      · rw [hchild] at hc
        cases hc
      rw [hchild, List.mem_singleton] at hc
      subst hc
      exact ⟨hlt, .inr hp⟩
    | inr hnone =>
      rw [hnone] at hc
      cases hc
  exact exists_congr hagree

lemma closes_iff (hwf : h₀.Wf) (hpf : pf < h₀.size)
    (hres : env.mkScope k h₀ pf assumps true doMinimize expected = some (pn, assumps', h')) :
    ∃ h acu, BodyOk env assumps.dedup h₀ pf h acu ∧
      assumps' = env.scopeAssumps assumps assumps.dedup acu doMinimize ∧
      (∀ f, h'.Free pf f ↔ h.Free pf f) ∧
      (Closes h₀ pf assumps doMinimize pn assumps' h' ↔ (∀ f ∈ assumps', f ∈ assumps) ∧
          (doMinimize = true → ∀ f, f ∈ assumps' ↔ h'.Free pf f)) := by
  obtain ⟨h, acu, hb, hassumps, hcase⟩ := mkScope_cases hwf hpf hres
  obtain ⟨hnodup, hsel⟩ := scopeAssumps_cases hb.nodup hassumps
  have hle := hb.connected.size_le
  have hnode : ∀ n < h.size, h'.node n = h.node n := by
    intro n hn
    rcases hcase with ⟨-, -, rfl⟩ | ⟨-, -, hnode⟩
    · rfl
    · rw [hnode, update_of_ne (Nat.ne_of_lt hn)]
  have hbody : ∀ f, h'.Free pf f ↔ h.Free pf f := fun f => free_body hwf hpf hb hnode
  have hpassed : ∀ f, h'.Free pf f → f ∈ assumps' := by
    intro f hf
    have hf := (hbody f).1 hf
    rcases hsel with ⟨-, -, hsel⟩ | ⟨-, hsel⟩
    · exact (hsel f).2 (hb.mem_acu_of_free hwf hpf hf)
    · have hmem := ((free_iff hb.connected hwf hpf hb.matched).1 hf).1
      exact (hsel f).2 (mem_dedup.1 hmem)
  have hproven : ∀ n < h₀.size, (h'.node n).proven = (h₀.node n).proven := by
    intro n hn
    rw [hnode n (Nat.lt_of_lt_of_le hn hle)]
    exact hb.connected.proven n hn
  refine ⟨h, acu, hb, hassumps, hbody, fun hok => ⟨hok.given, hok.minimal⟩, fun hok => ?_⟩
  rcases hcase with ⟨hnil, rfl, -⟩ | ⟨-, rfl, hroot⟩
  · refine ⟨.inl ⟨rfl, hnil⟩, fun f hf => ?_, hnodup, hok.1, hok.2, hproven⟩
    have hmem := hpassed f hf
    rw [hnil] at hmem
    cases hmem
  have hscope : h'.node h.size =
      ⟨.scope, [pf], assumps', scopeConclusion assumps' (h.node pf).proven⟩ := by
    rw [hroot, update_self]
  refine ⟨.inr ?_, fun f hf => ?_, hnodup, hok.1, hok.2, hproven⟩
  · rw [hscope, hb.connected.proven pf hpf]
  have hopen := (Heap.free_scope (by rw [hscope]) (by rw [hscope])).1 hf
  rw [hscope] at hopen
  exact hopen.1 (hpassed f hopen.2)

/-- When `mkScope` returns, it has closed the proof, and it has minimized the assumptions exactly if
`Minimizes`. -/
theorem mkScope_closes_iff (hwf : h₀.Wf) (hpf : pf < h₀.size)
    (hres : env.mkScope k h₀ pf assumps true doMinimize expected = some (pn, assumps', h')) :
    Closes h₀ pf assumps doMinimize pn assumps' h' ↔
      (doMinimize = true → Minimizes env h₀ pf assumps) := by
  obtain ⟨h, acu, hb, hassumps, hbody, hiff⟩ := closes_iff hwf hpf hres
  obtain ⟨_, hsel⟩ := scopeAssumps_cases hb.nodup hassumps
  have hfree : ∀ f, h'.Free pf f ↔ f ∈ assumps ∧ Exposed env assumps.dedup h₀ pf f := by
    intro f
    rw [hbody, free_iff hb.connected hwf hpf hb.matched, mem_dedup]
  have hused : ∀ f, h'.Free pf f → f ∈ acu :=
    fun f hf => hb.mem_acu_of_free hwf hpf ((hbody f).1 hf)
  rw [hiff]
  constructor
  · rintro ⟨hgiven, hmin⟩ hdo
    have hmin := hmin hdo
    rcases hsel with ⟨-, -, hsel⟩ | ⟨-, hsel⟩
    · -- The used assumptions are passed on.
      refine .inl fun a ha => ⟨?_, ?_⟩
      · intro hcov
        have hmem : a ∈ assumps' := (hsel a).2 ((hb.mem_acu a).2 ⟨a, ha, by rw [hcov]; rfl⟩)
        rw [cover_of_mem (mem_dedup.2 (hgiven a hmem))] at hcov
        cases hcov
      intro m hm
      have hmem : m ∈ assumps' := (hsel m).2 ((hb.mem_acu m).2 ⟨a, ha, used_of_target hm⟩)
      exact ((hfree m).1 ((hmin m).1 hmem)).2
    · exact .inr fun m hm => ((hfree m).1 ((hmin m).1 ((hsel m).2 hm))).2
  intro hcond
  rcases hsel with ⟨hdo, hlt, hsel⟩ | ⟨hlen, hsel⟩
  · cases hcond hdo with
    | inl hcond =>
      have hacu : ∀ u ∈ acu, u ∈ assumps ∧ h'.Free pf u := by
        intro u hu
        rcases hb.acu_cases hu with ⟨hmem, hu⟩ | ⟨a, ha, hm⟩ | ⟨-, hu, hcov⟩
        · exact ⟨mem_dedup.1 hmem, (hfree u).2 ⟨mem_dedup.1 hmem, .inl hu⟩⟩
        · have hmem := mem_dedup.1 (mem_of_target hm)
          exact ⟨hmem, (hfree u).2 ⟨hmem, (hcond a ha).2 u hm⟩⟩
        · exact absurd hcov (hcond u hu).1
      exact ⟨fun f hf => (hacu f ((hsel f).1 hf)).1, fun _ f =>
        ⟨fun hf => (hacu f ((hsel f).1 hf)).2, fun hf => (hsel f).2 (hused f hf)⟩⟩
    | inr hcond =>
      -- All given assumptions are used, so nothing was to be left out.
      have hsub : assumps.dedup ⊆ acu := by
        intro m hm
        have hmem := mem_dedup.1 hm
        exact hused m ((hfree m).2 ⟨hmem, hcond m hmem⟩)
      have hlen := (assumps.nodup_dedup.subperm hsub).length_le
      exact absurd hlt (Nat.not_lt_of_le hlen)
  refine ⟨fun f hf => (hsel f).1 hf, fun hdo f => ⟨fun hf => ?_, fun hf => ?_⟩⟩
  · have hmem := (hsel f).1 hf
    cases hcond hdo with
    | inr hcond => exact (hfree f).2 ⟨hmem, hcond f hmem⟩
    | inl hcond =>
      have hacu : acu ⊆ assumps.dedup := by
        intro u hu
        rcases hb.acu_cases hu with ⟨hmem, -⟩ | ⟨a, -, hm⟩ | ⟨-, hu, hcov⟩
        · exact hmem
        · exact mem_of_target hm
        · exact absurd hcov (hcond u hu).1
      have hperm := (hb.nodup.subperm hacu).perm_of_length_le (hlen hdo)
      have hu : f ∈ acu := hperm.mem_iff.2 (mem_dedup.2 hmem)
      rcases hb.acu_cases hu with ⟨-, hu⟩ | ⟨a, ha, hm⟩ | ⟨-, hu, hcov⟩
      · exact (hfree f).2 ⟨hmem, .inl hu⟩
      · exact (hfree f).2 ⟨hmem, (hcond a ha).2 f hm⟩
      · exact absurd hcov (hcond f hu).1
  · exact (hsel f).2 ((hfree f).1 hf).1

end Main

/-! ## The end of `mkScope` -/

/-- The loop fails only for a free assumption without a match. -/
lemma exists_connect_all {h₀ : Heap Node} {famap : AMap Node}
    (hc : Connected env ac h₀ done h) (hdone : ∀ f n, done f n → h₀.Leaf n f)
    (hok : EntriesOk h₀ famap) (hall : ∀ e ∈ famap, env.cover ac e.1 ≠ .unmatched)
    (acu : List Node) : ∃ st, famap.foldlM (env.connect ac true) (h, acu) = some st := by
  induction famap generalizing done h acu with
  | nil => exact ⟨(h, acu), rfl⟩
  | cons e famap ih =>
    obtain ⟨b, ns⟩ := e
    have hhead : ∀ n ∈ ns, AMap.Has ((b, ns) :: famap) b n :=
      fun n hn => AMap.has_cons.2 (.inl ⟨rfl, hn⟩)
    have htail : ∀ f n, AMap.Has famap f n → AMap.Has ((b, ns) :: famap) f n :=
      fun f n hn => AMap.has_cons.2 (.inr hn)
    obtain ⟨h₁, u, _, hconnect, hc₁⟩ := exists_connect hc hdone
      (fun n hn => hok.leaf b n (hhead n hn)) (fun n hn => hok.old b n (hhead n hn))
      (fun n hn => hok.proven b n (hhead n hn)) (hall (b, ns) (.head _)) true acu
    obtain ⟨st, hst⟩ := ih hc₁ (by
        intro f n hf
        cases hf with
        | inl hf => exact hdone f n hf
        | inr hf => exact hf.1 ▸ hok.leaf b n (hhead n hf.2))
      ⟨fun f n hn => hok.leaf f n (htail f n hn), fun f n hn => hok.old f n (htail f n hn),
        fun f n hn => hok.proven f n (htail f n hn)⟩
      (fun e he => hall e (.tail _ he)) (acu.insert u)
    refine ⟨st, ?_⟩
    rw [List.foldlM_cons]
    exact Option.bind_eq_some_iff.2 ⟨_, hconnect, hst⟩

/-- `mkScope` returns if every free assumption is given, symmetric to one that is given, trivially
true or equal to one after rewriting. -/
theorem mkScope_returns {h₀ : Heap Node} {pf : Nat} {assumps : List Node} {doMinimize : Bool}
    {expected : Option Node} (hwf : h₀.Wf) (hacyclic : h₀.Acyclic) (hpf : pf < h₀.size)
    (hall : ∀ f, h₀.Free pf f → env.cover assumps.dedup f ≠ .unmatched) :
    ∃ k res, env.mkScope k h₀ pf assumps true doMinimize expected = some res := by
  obtain ⟨k, famap, hfamap⟩ : ∃ k famap, getFreeAssumptionsMap env.lt h₀ k pf = some famap :=
    getFreeAssumptionsMap_returns hwf hacyclic
  have hmap := getFreeAssumptionsMap_ok hwf hfamap
  have hcovers : ∀ e ∈ famap, env.cover assumps.dedup e.1 ≠ .unmatched := by
    intro e he hcov
    obtain ⟨f, hf, hcov⟩ := (hmap.exists_key
      (P := fun f => env.cover assumps.dedup f = .unmatched)).1 ⟨e, he, hcov⟩
    exact hall f hf hcov
  obtain ⟨⟨h, acu⟩, hloop⟩ := exists_connect_all connected_start (fun _ _ hf => hf.elim)
    (entriesOk hwf hpf hmap) hcovers []
  refine ⟨k, ?_⟩
  unfold mkScope
  rw [if_neg (by simp)]
  dsimp only
  rw [hfamap]
  change ∃ res, (famap.foldlM (env.connect assumps.dedup true) (h₀, []) >>= _) = some res
  rw [hloop]
  by_cases hnil : env.scopeAssumps assumps assumps.dedup acu doMinimize = []
  · exact ⟨_, if_pos hnil⟩
  have hconc : env.conclusion .scope ([pf].map fun c => (h.node c).proven)
      (env.scopeAssumps assumps assumps.dedup acu doMinimize) =
      some (scopeConclusion (env.scopeAssumps assumps assumps.dedup acu doMinimize)
        (h.node pf).proven) := congrArg some (if_neg hnil)
  change ∃ res, (if env.scopeAssumps assumps assumps.dedup acu doMinimize = [] then _ else _) =
    some res
  rw [if_neg hnil]
  exact ⟨_, Option.bind_eq_some_iff.2 ⟨_, mkNode_of_conclusion hconc, rfl⟩⟩

/-! ## A proof that is one assumption -/

/-- The leaf of an assumption, and nothing else. -/
def single (a : Node) : Heap Node where
  size := 1
  node
    | 0 => ⟨.assume, [], [a], a⟩
    | _ => ⟨.other 0, [], [], a⟩

lemma wf_single : (single a).Wf where
  assume n hn := by
    cases n with
    | zero => exact ⟨rfl, rfl⟩
    | succ n => cases hn
  scope n hn := by
    cases n with
    | zero => cases hn
    | succ n => cases hn
  lt n _ c hc := by
    cases n with
    | zero => cases hc
    | succ n => cases hc

lemma free_single {f : Node} (hf : (single a).Free 0 f) : f = a := by
  obtain ⟨n, hpath, hleaf⟩ := hf
  cases ReflTransGen.cases_head hpath with
  | inl heq =>
    subst heq
    exact hleaf.2.symm
  | inr hnext =>
    obtain ⟨c, hc, _⟩ := hnext
    cases hc.1

/-- The atom number `i`. -/
def atom (i : Nat) : Node := .app (.applyUf i) []

/-- An equality of a constant with itself. -/
def trivialEq : Node := .app .equal [atom 2, atom 2]

def reflexive : Env where
  rewrite n := if n = trivialEq then .constBoolean true else n
  rewrite_rewrite n := by
    by_cases hn : n = trivialEq
    · rw [if_pos hn]
      exact if_neg (by decide)
    · rw [if_neg hn, if_neg hn]
  getOriginalForm n := n
  getOriginalForm_true := rfl
  checkOther _ _ _ := none
  lazyCheck := false
  hashOrder ns := ns
  hashOrder_perm ns := .refl ns
  lt _ _ := false

/-- The second assumption is not needed. -/
theorem mkScope_single : ∃ pn assumps' h',
    reflexive.mkScope 3 (single (atom 0)) 0 [atom 0, atom 1] true true none =
      some (pn, assumps', h') ∧
    Closes (single (atom 0)) 0 [atom 0, atom 1] true pn assumps' h' := by
  obtain ⟨res, hres⟩ : ∃ res,
      reflexive.mkScope 3 (single (atom 0)) 0 [atom 0, atom 1] true true none = some res := ⟨_, rfl⟩
  refine ⟨_, _, _, hres, (mkScope_closes_iff wf_single Nat.zero_lt_one hres).2 fun _ => .inl ?_⟩
  intro a ha
  rw [free_single ha, cover_of_mem (by decide)]
  exact ⟨by decide, fun m hm => by cases hm⟩

/-- One of the two assumptions covers the leaf. -/
theorem mkScope_returns_single : ∃ k res,
    reflexive.mkScope k (single (atom 0)) 0 [atom 0, atom 1] true true none = some res := by
  have hacyclic : (single (atom 0)).Acyclic := ⟨id, fun n c hc => by
    cases n with
    | zero => cases hc
    | succ n => cases hc⟩
  refine mkScope_returns wf_single hacyclic Nat.zero_lt_one fun f hf => ?_
  rw [free_single hf, cover_of_mem (by decide)]
  decide

/-- The proof of a trivial assumption is minimized to a scope over this assumption, which is none of
those given. -/
theorem mkScope_trivial : ¬ ∀ pn assumps' h',
    reflexive.mkScope 3 (single trivialEq) 0 [atom 0, atom 1] true true none =
      some (pn, assumps', h') →
    Closes (single trivialEq) 0 [atom 0, atom 1] true pn assumps' h' := by
  intro hall
  have hgiven := (hall _ _ _ rfl).given trivialEq (by decide)
  revert hgiven
  decide

end Env

end EthosCpc.Cvc5.ProofNodes
