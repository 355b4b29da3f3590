import EthosCpc.Cvc5.LazyProofOrder
import EthosCpc.Library.Inversion

/-!
# When a chain of lazy proofs is acyclic

The links recorded by the traversal are roots of the calls that returned them,
and the nodes to expand are assumptions of such calls (`Recorded`), so that
connecting replaces each of them once (`foldl_updates`).  In an order of the
links (`Ordered`) every pointer leads to a smaller position of the same call or
to an earlier link, so that the proof returned is acyclic.  Without dependency
cycles nothing is dropped and no link stays open (`Clean`).
-/

namespace EthosCpc.Cvc5

open Option (bind_some map_eq_some_iff)
open List (mem_append mem_cons_of_mem mem_cons_self mem_filter mem_flatMap mem_map mem_singleton)
open AList (lookup_insert lookup_insert_ne lookup_isSome mem_insert)

variable {F : Type}

/-! ## The shape of proofs in memory -/

def Child (mem : ProofPtr → Option (ProofNode F ProofPtr)) (q c : ProofPtr) : Prop :=
  ∃ n, mem q = some n ∧ c ∈ n.children

/-- No node below a pointer is below itself. -/
def AcyclicFrom (mem : ProofPtr → Option (ProofNode F ProofPtr)) (q : ProofPtr) : Prop :=
  ∀ r, Relation.ReflTransGen (Child mem) q r → ¬ Relation.TransGen (Child mem) r r

/-- A fact is a free assumption of the proof at a pointer. -/
inductive FreeIn (mem : ProofPtr → Option (ProofNode F ProofPtr)) (f : F) : ProofPtr → Prop
  | assume {q n} (hq : mem q = some n) (hrule : n.rule = .assume) (hresult : n.result = f) :
      FreeIn mem f q
  | child {q n c} (hq : mem q = some n) (hrule : n.rule ≠ .assume) (hc : c ∈ n.children)
      (hscope : n.rule = .scope → f ∉ n.args) (hfree : FreeIn mem f c) : FreeIn mem f q

/-- An assumption node that is free below a node of a generated proof. -/
inductive LeafBelow (nodes : List (ProofNode F Nat)) (f : F) (leaf : Nat) : Nat → Prop
  | assume {n} (hn : nodes[leaf]? = some n) (hrule : n.rule = .assume) (hresult : n.result = f) :
      LeafBelow nodes f leaf leaf
  | child {i n c} (hn : nodes[i]? = some n) (hrule : n.rule ≠ .assume) (hc : c ∈ n.children)
      (hscope : n.rule = .scope → f ∉ n.args) (hleaf : LeafBelow nodes f leaf c) :
      LeafBelow nodes f leaf i

variable [DecidableEq F]

variable {i leaf : Nat}

lemma mem_freeLeavesRec_assume {nodes : List (ProofNode F Nat)} {d : Nat} {a : F × Nat}
    (h : a ∈ freeLeavesRec nodes d i) :
    ∃ n, nodes[a.2]? = some n ∧ n.rule = .assume ∧ n.result = a.1 := by
  induction d generalizing i with
  | zero => simp [freeLeavesRec] at h
  | succ d ih =>
    rw [freeLeavesRec] at h
    cases hn : nodes[i]? with
    | none => simp [hn] at h
    | some n =>
      cases hrule : n.rule with
      | assume =>
        simp only [hn, hrule, mem_singleton] at h
        rw [h]
        exact ⟨n, hn, hrule, rfl⟩
      | scope =>
        simp only [hn, hrule] at h
        obtain ⟨c, _, hc⟩ := mem_flatMap.1 (mem_filter.1 h).1
        exact ih hc
      | step id =>
        simp only [hn, hrule] at h
        obtain ⟨c, _, hc⟩ := mem_flatMap.1 h
        exact ih hc

variable {f g : F}

variable {p : FreshProof F f}

lemma LeafBelow.mem_freeLeavesRec {d : Nat}
    (h : LeafBelow p.nodes g leaf i) (hd : i < d) : (g, leaf) ∈ freeLeavesRec p.nodes d i := by
  induction h generalizing d with
  | assume hn hrule hresult =>
    cases d with
    | zero => omega
    | succ d => simp [freeLeavesRec, hn, hrule, hresult]
  | @child i n c hn hrule hc hscope _ ih =>
    cases d with
    | zero => omega
    | succ d =>
      have hlt := p.earlier i n hn c hc
      have hmem : (g, leaf) ∈ n.children.flatMap (freeLeavesRec p.nodes d) :=
        mem_flatMap.2 ⟨c, hc, ih (by omega)⟩
      rw [freeLeavesRec]
      cases hr : n.rule with
      | assume => exact absurd hr hrule
      | scope =>
        simp only [hn, hr]
        exact mem_filter.2 ⟨hmem, by simpa using hscope hr⟩
      | step id =>
        simp only [hn, hr]
        exact hmem

omit [DecidableEq F] in
lemma FreshProof.rootIdx_lt {f : F} (p : FreshProof F f) : p.rootIdx < p.nodes.length := by
  obtain ⟨n, hn, _⟩ := p.root
  exact (List.getElem?_eq_some_iff.1 hn).1

omit [DecidableEq F] in
lemma FreshProof.root_node {f : F} (p : FreshProof F f) :
    ∃ n, p.nodes[p.rootIdx]? = some n ∧ n.result = f := p.root

lemma FreshProof.leaf_node (h : (g, i) ∈ p.freeLeaves) :
    ∃ n, p.nodes[i]? = some n ∧ n.rule = .assume ∧ n.result = g :=
  mem_freeLeavesRec_assume (List.mem_dedup.1 h)

lemma FreshProof.mem_freeLeaves
    (h : LeafBelow p.nodes g leaf p.rootIdx) : (g, leaf) ∈ p.freeLeaves :=
  List.mem_dedup.2 (h.mem_freeLeavesRec p.rootIdx_lt)

lemma FreshProof.root_rule {f : F} {p : FreshProof F f} {le : F → F → Bool}
    (hself : f ∉ p.assumptions le) {n : ProofNode F Nat} (hn : p.nodes[p.rootIdx]? = some n) :
    n.rule ≠ .assume := by
  intro hrule
  obtain ⟨m, hm, hresult⟩ := p.root_node
  rw [hn, Option.some.injEq] at hm
  subst hm
  exact hself (mem_assumptions.2 ⟨_, mem_freeLeaves (.assume hn hrule hresult)⟩)

/-! ## What the traversal records -/

variable (le : F → F → Bool) (gens : AList (FreshProof F))

/-- Links are connected to the calls for their facts, and the nodes to expand are assumptions of
calls that were not trivial cycles. -/
structure Recorded (s : ChainState F) : Prop where
  connected : ∀ f q, s.toConnect.lookup f = some q → s.calls[q.1]? = some f ∧
    ∃ p, gens.lookup f = some p ∧ ((f ∉ p.assumptions le ∧ q.2 = p.rootIdx ∧
        ∀ g i, (g, i) ∈ p.freeLeaves → (q.1, i) ∈ s.toExpand g) ∨ (f, q.2) ∈ p.freeLeaves)
  expanded : ∀ g q, q ∈ s.toExpand g → ∃ f p, s.calls[q.1]? = some f ∧
    gens.lookup f = some p ∧ f ∉ p.assumptions le ∧ (g, q.2) ∈ p.freeLeaves

variable {le gens}

lemma getElem?_append_of_some {α : Type} {l : List α} {x : α} (h : l[i]? = some x)
    (r : List α) : (l ++ r)[i]? = some x := by
  rw [List.getElem?_append_left (List.getElem?_eq_some_iff.1 h).1]
  exact h

variable {q : ProofPtr}

variable {toExpand : F → List ProofPtr}

lemma mem_addToExpand {call : Nat} {leaves : List (F × Nat)} {g : F} :
    q ∈ addToExpand toExpand call leaves g ↔ q ∈ toExpand g ∨ q.1 = call ∧ (g, q.2) ∈ leaves := by
  obtain ⟨c, i⟩ := q
  unfold addToExpand
  simp only [mem_append, mem_map, mem_filter, decide_eq_true_eq, Prod.mk.injEq]
  constructor
  · rintro (h | ⟨⟨g', j⟩, ⟨hmem, rfl⟩, rfl, rfl⟩)
    · exact .inl h
    · exact .inr ⟨rfl, hmem⟩
  rintro (h | ⟨rfl, hmem⟩)
  · exact .inl h
  · exact .inr ⟨(g, i), ⟨hmem, rfl⟩, rfl, rfl⟩

variable {cur : F}

lemma Recorded.extend {s t : ChainState F} (h : Recorded le gens s)
    (hcalls : t.calls = s.calls ++ [cur]) (hexpand : ∀ g, s.toExpand g ⊆ t.toExpand g)
    (hold : ∀ f q, t.toConnect.lookup f = some q → s.toConnect.lookup f = some q ∨
      f = cur ∧ q.1 = s.calls.length ∧ ∃ p, gens.lookup f = some p ∧
        ((f ∉ p.assumptions le ∧ q.2 = p.rootIdx ∧
          ∀ g i, (g, i) ∈ p.freeLeaves → (q.1, i) ∈ t.toExpand g) ∨ (f, q.2) ∈ p.freeLeaves))
    (hnew : ∀ g q, q ∈ t.toExpand g → q ∈ s.toExpand g ∨ q.1 = s.calls.length ∧
      ∃ p, gens.lookup cur = some p ∧ cur ∉ p.assumptions le ∧ (g, q.2) ∈ p.freeLeaves) :
    Recorded le gens t := by
  have hlast : (s.calls ++ [cur])[s.calls.length]? = some cur := by simp
  constructor
  · intro f q hq
    rw [hcalls]
    rcases hold f q hq with hq | ⟨rfl, hcall, hp⟩
    · obtain ⟨hcall, p, hp, hcases⟩ := h.connected f q hq
      refine ⟨getElem?_append_of_some hcall _, p, hp, ?_⟩
      rcases hcases with ⟨hself, hroot, hleaves⟩ | hleaf
      · exact .inl ⟨hself, hroot, fun g i hi => hexpand g (hleaves g i hi)⟩
      · exact .inr hleaf
    · rw [hcall]
      exact ⟨hlast, hcall ▸ hp⟩
  · intro g q hq
    rw [hcalls]
    rcases hnew g q hq with hq | ⟨hcall, p, hp⟩
    · obtain ⟨f, p, hcall, hp⟩ := h.expanded g q hq
      exact ⟨f, p, getElem?_append_of_some hcall _, hp⟩
    · rw [hcall]
      exact ⟨cur, p, hlast, hp⟩

lemma lookup_erase_eq_some {β : F → Type} {m : AList β} {a f : F} {b : β f}
    (h : (m.erase a).lookup f = some b) : m.lookup f = some b := by
  by_cases hfa : f = a
  · subst hfa
    rw [AList.lookup_erase] at h
    contradiction
  · rwa [AList.lookup_erase_ne hfa] at h

variable {s : ChainState F}

lemma Recorded.step (h : Recorded le gens s) : Recorded le gens (s.step le gens) := by
  unfold ChainState.step
  cases hvisit : s.visit with
  | nil => exact h
  | cons cur rest =>
    cases hnew : s.visited.lookup cur with
    | some v =>
      simp only [hnew]
      exact ⟨h.connected, h.expanded⟩
    | none =>
      cases hp : gens.lookup cur with
      | none =>
        simp only [hnew, hp]
        exact ⟨h.connected, h.expanded⟩
      | some p =>
        simp only [hnew, hp]
        rcases ChainState.expand_cases s cur rest p with
          ⟨i, hi, heq⟩ | ⟨hself, a, ha, hprog, heq⟩ | ⟨hself, hprog, heq⟩
        · rw [heq]
          refine h.extend rfl (fun g => List.Subset.refl _) ?_ fun g q hq => .inl hq
          intro f q hq
          by_cases hf : f = cur
          · subst hf
            rw [lookup_insert, Option.some.injEq] at hq
            rw [← hq]
            exact .inr ⟨rfl, rfl, p, hp, .inr hi⟩
          · rw [lookup_insert_ne hf] at hq
            exact .inl hq
        · rw [heq]
          refine h.extend rfl (fun g => List.Subset.refl _) ?_ fun g q hq => .inl hq
          intro f q hq
          exact .inl (lookup_erase_eq_some (lookup_erase_eq_some hq))
        rw [heq]
        refine h.extend rfl (fun g q hq => mem_addToExpand.2 (.inl hq)) ?_ ?_
        · intro f q hq
          by_cases hf : f = cur
          · subst hf
            rw [lookup_insert, Option.some.injEq] at hq
            rw [← hq]
            refine .inr ⟨rfl, rfl, p, hp, .inl ⟨hself, rfl, fun g i hi => ?_⟩⟩
            exact mem_addToExpand.2 (.inr ⟨rfl, hi⟩)
          · rw [lookup_insert_ne hf] at hq
            exact .inl hq
        · intro g q hq
          rcases mem_addToExpand.1 hq with hq | ⟨hcall, hleaf⟩
          · exact .inl hq
          · exact .inr ⟨hcall, p, hp, hself, hleaf⟩

lemma recorded_after (fact : F) (n : Nat) : Recorded le gens (.after le gens fact n) := by
  induction n with
  | zero =>
    constructor
    · intro f q hq
      cases hq
    · intro g q hq
      cases hq
  | succ n ih =>
    rw [ChainState.after, Function.iterate_succ_apply']
    exact ih.step

/-! ## Connecting -/

lemma foldl_updates (us : List (ProofPtr × ProofPtr))
    (mem : ProofPtr → Option (ProofNode F ProofPtr))
    (hsource : ∀ u ∈ us, ∀ v ∈ us, u.2 ≠ v.1)
    (hresult : ∀ u ∈ us, ∃ n r, mem u.1 = some n ∧ mem u.2 = some r ∧ n.result = r.result)
    (hfun : ∀ u ∈ us, ∀ v ∈ us, u.1 = v.1 → u.2 = v.2) :
    (∀ q, (∀ u ∈ us, u.1 ≠ q) → us.foldl (fun m u => updateNode m u.1 u.2) mem q = mem q) ∧
      ∀ u ∈ us, us.foldl (fun m u => updateNode m u.1 u.2) mem u.1 = mem u.2 := by
  induction us generalizing mem with
  | nil => simp
  | cons u us ih =>
    obtain ⟨n, r, hn, hr, hnr⟩ := hresult u (.head _)
    have hupdate : updateNode mem u.1 u.2 = Function.update mem u.1 (some r) := by
      simp [updateNode, hn, hr, hnr]
    have hother : ∀ q, q ≠ u.1 → updateNode mem u.1 u.2 q = mem q := by
      intro q hq
      rw [hupdate, Function.update_of_ne hq]
    have hself : updateNode mem u.1 u.2 u.1 = mem u.2 := by rw [hupdate, Function.update_self, hr]
    have hkeep : ∀ v ∈ u :: us, updateNode mem u.1 u.2 v.2 = mem v.2 := fun v hv =>
      hother v.2 (hsource v hv u (.head _))
    obtain ⟨ihother, ihself⟩ := ih (updateNode mem u.1 u.2)
      (fun v hv w hw => hsource v (.tail _ hv) w (.tail _ hw))
      (by
        intro v hv
        obtain ⟨m, t, hm, ht, hmt⟩ := hresult v (.tail _ hv)
        rw [hkeep v (mem_cons_of_mem _ hv)]
        by_cases hvu : v.1 = u.1
        · rw [hvu, hself]
          have hmn : m = n := by
            rw [hvu, hn] at hm
            exact (Option.some.inj hm).symm
          exact ⟨r, t, hr, ht, by rw [← hnr, ← hmn, hmt]⟩
        · rw [hother v.1 hvu]
          exact ⟨m, t, hm, ht, hmt⟩)
      (fun v hv w hw => hfun v (.tail _ hv) w (.tail _ hw))
    rw [List.foldl_cons]
    constructor
    · intro q hq
      rw [ihother q fun v hv => hq v (mem_cons_of_mem _ hv)]
      exact hother q (hq u (.head _)).symm
    intro v hv
    by_cases hlater : ∃ w ∈ us, w.1 = v.1
    · obtain ⟨w, hw, hwv⟩ := hlater
      rw [← hwv, ihself w hw, hkeep w (mem_cons_of_mem _ hw)]
      exact congrArg mem (hfun w (.tail _ hw) v hv hwv)
    rcases List.mem_cons.1 hv with rfl | hv
    · rw [ihother v.1 fun w hw hwv => hlater ⟨w, hw, hwv⟩, hself]
    · exact absurd ⟨v, hv, rfl⟩ hlater

def ChainState.updates (s : ChainState F) : List (ProofPtr × ProofPtr) :=
  s.toConnect.entries.flatMap fun link => (s.toExpand link.1).map fun pn => (pn, link.2)

lemma connect_eq_foldl_updates (s : ChainState F) : s.connect gens =
      s.updates.foldl (fun m u => updateNode m u.1 u.2) (callMemory gens s.calls) := by
  unfold ChainState.connect ChainState.updates
  generalize callMemory gens s.calls = mem
  induction s.toConnect.entries generalizing mem with
  | nil => rfl
  | cons link links ih =>
    rw [List.foldl_cons, ih, List.flatMap_cons, List.foldl_append, List.foldl_map]
    rfl

lemma mem_updates {u : ProofPtr × ProofPtr} :
    u ∈ s.updates ↔ ∃ g, s.toConnect.lookup g = some u.2 ∧ u.1 ∈ s.toExpand g := by
  unfold ChainState.updates
  rw [mem_flatMap]
  constructor
  · rintro ⟨⟨g, q⟩, hlink, hu⟩
    obtain ⟨pn, hpn, rfl⟩ := mem_map.1 hu
    exact ⟨g, AList.mem_lookup_iff.2 hlink, hpn⟩
  · rintro ⟨g, hq, hpn⟩
    refine ⟨⟨g, u.2⟩, AList.mem_lookup_iff.1 hq, mem_map.2 ⟨u.1, hpn, rfl⟩⟩

variable {calls : List F}

lemma callMemory_eq {f : F} {p : FreshProof F f}
    (hcall : calls[q.1]? = some f) (hp : gens.lookup f = some p) :
    callMemory gens calls q = (p.nodes[q.2]?).map (ProofNode.mapChildren fun c => (q.1, c)) := by
  rw [callMemory, hcall, bind_some, hp, bind_some]

variable {r : ProofPtr}

lemma Recorded.root_memory (h : Recorded le gens s) {g : F} (hr : s.toConnect.lookup g = some r) :
    ∃ n, callMemory gens s.calls r = some n ∧ n.result = g := by
  obtain ⟨hcall, p, hp, hcases⟩ := h.connected g r hr
  rw [callMemory_eq hcall hp]
  rcases hcases with ⟨_, hroot, _⟩ | hleaf
  · obtain ⟨n, hn, hresult⟩ := p.root_node
    rw [hroot, hn]
    exact ⟨_, rfl, hresult⟩
  obtain ⟨n, hn, _, hresult⟩ := FreshProof.leaf_node hleaf
  rw [hn]
  exact ⟨_, rfl, hresult⟩

lemma Recorded.leaf_memory (h : Recorded le gens s) {g : F} (hq : q ∈ s.toExpand g) :
    ∃ n, callMemory gens s.calls q = some n ∧ n.rule = .assume ∧ n.result = g := by
  obtain ⟨f, p, hcall, hp, _, hleaf⟩ := h.expanded g q hq
  obtain ⟨n, hn, hrule, hresult⟩ := FreshProof.leaf_node hleaf
  rw [callMemory_eq hcall hp, hn]
  exact ⟨_, rfl, hrule, hresult⟩

lemma Recorded.root_notMem (h : Recorded le gens s) {g g' : F}
    (hr : s.toConnect.lookup g = some r) : r ∉ s.toExpand g' := by
  intro hmem
  obtain ⟨hcall, p, hp, hcases⟩ := h.connected g r hr
  obtain ⟨f, p', hcall', hp', hself, hleaf⟩ := h.expanded g' r hmem
  rw [hcall, Option.some.injEq] at hcall'
  subst hcall'
  rw [hp, Option.some.injEq] at hp'
  subst hp'
  rcases hcases with ⟨hself, hroot, _⟩ | hleaf'
  · obtain ⟨n, hn, hrule, _⟩ := FreshProof.leaf_node hleaf
    rw [hroot] at hn
    exact FreshProof.root_rule hself hn hrule
  · exact hself (FreshProof.mem_assumptions.2 ⟨_, hleaf'⟩)

/-- What connecting does: each node to expand of a connected link becomes the root of the link,
and all else stays. -/
lemma Recorded.connect (h : Recorded le gens s) :
    (∀ q, (∀ g r, s.toConnect.lookup g = some r → q ∉ s.toExpand g) →
      s.connect gens q = callMemory gens s.calls q) ∧
    ∀ g q r, s.toConnect.lookup g = some r → q ∈ s.toExpand g →
      s.connect gens q = callMemory gens s.calls r := by
  have hupdates := foldl_updates s.updates (callMemory gens s.calls) (by
      intro u hu v hv heq
      obtain ⟨g, hg, _⟩ := mem_updates.1 hu
      obtain ⟨g', _, hv'⟩ := mem_updates.1 hv
      exact h.root_notMem hg (heq ▸ hv'))
    (by
      intro u hu
      obtain ⟨g, hg, hmem⟩ := mem_updates.1 hu
      obtain ⟨n, hn, _, hresult⟩ := h.leaf_memory hmem
      obtain ⟨r, hr, hresult'⟩ := h.root_memory hg
      exact ⟨n, r, hn, hr, by rw [hresult, hresult']⟩)
    (by
      intro u hu v hv heq
      obtain ⟨g, hg, hmem⟩ := mem_updates.1 hu
      obtain ⟨g', hg', hmem'⟩ := mem_updates.1 hv
      obtain ⟨n, hn, _, hresult⟩ := h.leaf_memory hmem
      obtain ⟨m, hm, _, hresult'⟩ := h.leaf_memory hmem'
      rw [heq, hm, Option.some.injEq] at hn
      rw [← hresult, ← hn, hresult', hg', Option.some.injEq] at hg
      exact hg.symm)
  rw [connect_eq_foldl_updates]
  constructor
  · intro q hq
    refine hupdates.1 q fun u hu heq => ?_
    obtain ⟨g, hg, hmem⟩ := mem_updates.1 hu
    exact hq g u.2 hg (heq ▸ hmem)
  · intro g q r hr hq
    exact hupdates.2 (q, r) (mem_updates.2 ⟨g, hr, hq⟩)

/-! ## Acyclicity -/

/-- The position of the fact of a pointer in an order of the links, and its position in its own
call. -/
def ptrRank (order : List F) (calls : List F) (q : ProofPtr) : Nat ×ₗ Nat :=
  toLex (((calls[q.1]?).map fun f => order.idxOf f).getD 0, q.2)

/-- A pointer into the call of a connected link, at or below its root. -/
def Connected (s : ChainState F) (q : ProofPtr) : Prop :=
  ∃ f r, s.toConnect.lookup f = some r ∧ r.1 = q.1 ∧ q.2 ≤ r.2

lemma callMemory_child {q c : ProofPtr} {n : ProofNode F ProofPtr}
    (hn : callMemory gens calls q = some n) (hc : c ∈ n.children) : c.1 = q.1 ∧ c.2 < q.2 := by
  unfold callMemory at hn
  cases hcall : calls[q.1]? with
  | none => simp [hcall] at hn
  | some f =>
    cases hp : gens.lookup f with
    | none => simp [hcall, hp] at hn
    | some p =>
      simp only [hcall, hp, bind_some, map_eq_some_iff] at hn
      obtain ⟨m, hm, rfl⟩ := hn
      obtain ⟨i, hi, rfl⟩ := mem_map.1 hc
      exact ⟨rfl, p.earlier q.2 m hm i hi⟩

/-- Where the children of a node lead: down in the same call, or below the root of the link that
replaced the node. -/
lemma Recorded.child_cases (h : Recorded le gens s) {q c : ProofPtr}
    (hc : Child (s.connect gens) q c) :
    (c.1 = q.1 ∧ c.2 < q.2) ∨
      ∃ g r, s.toConnect.lookup g = some r ∧ q ∈ s.toExpand g ∧ c.1 = r.1 ∧ c.2 < r.2 := by
  obtain ⟨n, hn, hmem⟩ := hc
  obtain ⟨hkeep, hreplace⟩ := h.connect
  by_cases hq : ∃ g r, s.toConnect.lookup g = some r ∧ q ∈ s.toExpand g
  · obtain ⟨g, r, hr, hq⟩ := hq
    rw [hreplace g q r hr hq] at hn
    exact .inr ⟨g, r, hr, hq, callMemory_child hn hmem⟩
  · rw [hkeep q fun g r hr hmem => hq ⟨g, r, hr, hmem⟩] at hn
    exact .inl (callMemory_child hn hmem)

lemma Recorded.connected_child (h : Recorded le gens s) {q c : ProofPtr}
    (hq : Connected s q) (hc : Child (s.connect gens) q c) : Connected s c := by
  rcases h.child_cases hc with ⟨hcall, hlt⟩ | ⟨g, r, hr, _, hcall, hlt⟩
  · obtain ⟨f, r, hr, hcall', hle⟩ := hq
    exact ⟨f, r, hr, hcall'.trans hcall.symm, by omega⟩
  · exact ⟨g, r, hr, hcall.symm, hlt.le⟩

lemma idxOf_lt_of_pairwise {order : List F} {R : F → F → Prop} (hpair : order.Pairwise R)
    (hf : f ∈ order) (hg : g ∈ order) (hne : f ≠ g) (hfg : ¬ R f g) : order.idxOf g < order.idxOf f := by
  rcases Nat.lt_trichotomy (order.idxOf f) (order.idxOf g) with hlt | heq | hlt
  · refine absurd ?_ hfg
    have hR := List.pairwise_iff_getElem.1 hpair _ _ (List.idxOf_lt_length_of_mem hf)
      (List.idxOf_lt_length_of_mem hg) hlt
    rwa [List.getElem_idxOf, List.getElem_idxOf] at hR
  · exact absurd ((List.idxOf_inj hf).1 heq) hne
  · exact hlt

lemma Ordered.rank_lt {done prog : List F} (h : Ordered le gens s done prog)
    (hrec : Recorded le gens s) {q c : ProofPtr} (hq : Connected s q)
    (hc : Child (s.connect gens) q c) :
    ptrRank (done ++ prog) s.calls c < ptrRank (done ++ prog) s.calls q := by
  rcases hrec.child_cases hc with ⟨hcall, hlt⟩ | ⟨g, r, hr, hexpand, hcall, hlt⟩
  · refine Prod.Lex.toLex_lt_toLex.2 (.inr ⟨?_, hlt⟩)
    rw [hcall]
  obtain ⟨f, p, hcallf, hp, hself, hleaf⟩ := hrec.expanded g q hexpand
  obtain ⟨hcallg, _⟩ := hrec.connected g r hr
  obtain ⟨f', r', hr', hcall', _⟩ := hq
  obtain ⟨hcallf', _⟩ := hrec.connected f' r' hr'
  rw [hcall', hcallf, Option.some.injEq] at hcallf'
  subst hcallf'
  have hdeps : depsOf le gens f = p.assumptions le := depsOf_eq hp
  have hmem : g ∈ p.assumptions le := FreshProof.mem_assumptions.2 ⟨_, hleaf⟩
  have hlink : g ∈ linkDeps le gens f := by
    rw [linkDeps, hdeps, if_neg hself]
    exact hmem
  have hf : f ∈ s.toConnect := lookup_isSome.1 (by rw [hr']; rfl)
  have hg : g ∈ s.toConnect := lookup_isSome.1 (by rw [hr]; rfl)
  have hne : f ≠ g := by
    rintro rfl
    exact hself hmem
  have hidx := idxOf_lt_of_pairwise h.backward (h.connected f hf) (h.connected g hg) hne
    fun hfg => hfg hf hg hlink
  refine Prod.Lex.toLex_lt_toLex.2 (.inl ?_)
  rw [hcall, hcallg, hcallf]
  exact hidx

variable {fact : F}

lemma acyclic_of_ordered {done prog : List F}
    (h : Ordered le gens s done prog) (hrec : Recorded le gens s)
    (hq : s.toConnect.lookup fact = some q) : AcyclicFrom (s.connect gens) q := by
  have hreach : ∀ r, Relation.ReflTransGen (Child (s.connect gens)) q r → Connected s r := by
    intro r hr
    induction hr with
    | refl => exact ⟨fact, q, hq, rfl, le_rfl⟩
    | tail _ hc ih => exact hrec.connected_child ih hc
  intro r hr hcycle
  have hlt : ∀ t, Relation.TransGen (Child (s.connect gens)) r t → Connected s t ∧
      ptrRank (done ++ prog) s.calls t < ptrRank (done ++ prog) s.calls r := by
    intro t ht
    induction ht with
    | single hc => exact ⟨hrec.connected_child (hreach r hr) hc, h.rank_lt hrec (hreach r hr) hc⟩
    | tail _ hc ih => exact ⟨hrec.connected_child ih.1 hc, (h.rank_lt hrec ih.1 hc).trans ih.2⟩
  exact lt_irrefl _ (hlt r hcycle).2

/-! ## Termination -/

def ChainState.unvisited (gens : AList (FreshProof F)) (s : ChainState F) : Nat :=
  (gens.keys.filter fun f => s.visited.lookup f = none).length

/-- More than the facts any generator assumes. -/
def pushBound (le : F → F → Bool) (gens : AList (FreshProof F)) : Nat :=
  (gens.keys.map fun f => (depsOf le gens f).length).sum + 2

/-- The traversal gets closer to the end. -/
def ChainState.measure (le : F → F → Bool) (gens : AList (FreshProof F)) (s : ChainState F) : Nat :=
  s.unvisited gens * pushBound le gens + s.visit.length

lemma length_depsOf_lt (hcur : cur ∈ gens) :
    (depsOf le gens cur).length + 1 < pushBound le gens := by
  have hle := List.single_le_sum (fun _ _ => Nat.zero_le _) _
    (List.mem_map_of_mem (f := fun f => (depsOf le gens f).length) (AList.mem_keys.1 hcur))
  unfold pushBound
  omega

variable {v : Bool}

lemma unvisited_insert {s t : ChainState F}
    (hvisited : t.visited = s.visited.insert cur v) : t.unvisited gens =
      ((gens.keys.filter fun f => s.visited.lookup f = none).filter fun f => f ≠ cur).length := by
  unfold ChainState.unvisited
  rw [List.filter_filter]
  congr 1
  refine List.filter_congr fun f _ => ?_
  simp only [hvisited, AList.lookup_insert_eq_none, Bool.decide_and]

lemma unvisited_insert_le {s t : ChainState F}
    (hvisited : t.visited = s.visited.insert cur v) : t.unvisited gens ≤ s.unvisited gens := by
  rw [unvisited_insert hvisited]
  exact List.length_filter_le _ _

lemma unvisited_insert_lt {s t : ChainState F}
    (hvisited : t.visited = s.visited.insert cur v) (hnew : s.visited.lookup cur = none)
    (hcur : cur ∈ gens) : t.unvisited gens < s.unvisited gens := by
  rw [unvisited_insert hvisited]
  refine List.length_filter_lt_length_iff_exists.2 ⟨cur, ?_, by simp⟩
  exact mem_filter.2 ⟨AList.mem_keys.1 hcur, by simpa using hnew⟩

lemma measure_step_lt (hvisit : s.visit ≠ []) :
    (s.step le gens).measure le gens < s.measure le gens := by
  unfold ChainState.step
  cases hv : s.visit with
  | nil => exact absurd hv hvisit
  | cons cur rest =>
    have hpop : ∀ t : ChainState F, t.unvisited gens ≤ s.unvisited gens → t.visit = rest →
        t.measure le gens < s.measure le gens := by
      intro t ht hrest
      have hmul := Nat.mul_le_mul_right (pushBound le gens) ht
      unfold ChainState.measure
      rw [hv, hrest, List.length_cons]
      omega
    cases hnew : s.visited.lookup cur with
    | some v =>
      simp only [hnew]
      exact hpop _ (unvisited_insert_le rfl) rfl
    | none =>
      cases hp : gens.lookup cur with
      | none =>
        simp only [hnew, hp]
        exact hpop _ (unvisited_insert_le rfl) rfl
      | some p =>
        simp only [hnew, hp]
        have hcur : cur ∈ gens := lookup_isSome.1 (by rw [hp]; rfl)
        rcases @ChainState.expand_cases F _ le s cur rest p with
          ⟨i, hi, heq⟩ | ⟨hself, a, ha, hprog, heq⟩ | ⟨hself, hprog, heq⟩
        · rw [heq]
          exact hpop _ (unvisited_insert_le rfl) rfl
        · rw [heq]
          exact hpop _ le_rfl rfl
        rw [heq]
        -- a new link pushes its assumptions and itself
        have hlt := unvisited_insert_lt (s := s) (v := false)
          (t := ⟨s.calls ++ [cur], s.toConnect.insert cur (s.calls.length, p.rootIdx),
            addToExpand s.toExpand s.calls.length p.freeLeaves,
            (p.assumptions le).reverse ++ cur :: rest, s.visited.insert cur false⟩)
          rfl hnew hcur
        have hbound := @length_depsOf_lt F _ le gens cur hcur
        have hmul := Nat.mul_le_mul_right (pushBound le gens) (Nat.succ_le_of_lt hlt)
        rw [depsOf_eq hp] at hbound
        rw [Nat.succ_mul] at hmul
        unfold ChainState.measure
        simp only [hv, List.length_append, List.length_reverse, List.length_cons]
        omega

lemma exists_visit_eq_nil (fact : F) : ∃ n, (ChainState.after le gens fact n).visit = [] := by
  by_contra hnever
  push Not at hnever
  have hdecrease : ∀ n, (ChainState.after le gens fact n).measure le gens + n ≤
      (ChainState.after le gens fact 0).measure le gens := by
    intro n
    induction n with
    | zero => exact le_rfl
    | succ n ih =>
      have hlt := @measure_step_lt F _ le gens _ (hnever n)
      have hsucc : ChainState.after le gens fact (n + 1) =
          (ChainState.after le gens fact n).step le gens :=
        Function.iterate_succ_apply' _ _ _
      rw [hsucc]
      omega
  have hlast := hdecrease ((ChainState.after le gens fact 0).measure le gens + 1)
  omega

/-! ## Chains without dependency cycles -/

variable (le gens)

/-- The proof of a fact assumes another. -/
def Depends (f g : F) : Prop := g ∈ depsOf le gens f

def NoCycle (fact : F) : Prop :=
  ∀ g, Relation.ReflTransGen (Depends le gens) fact g → ¬ Relation.TransGen (Depends le gens) g g

/-- Without dependency cycles the links in progress lead to all that is above them on the stack,
and what a finished link assumes has been visited. -/
structure Clean (fact : F) (s : ChainState F) : Prop where
  reachable : ∀ f ∈ s.visit, Relation.ReflTransGen (Depends le gens) fact f
  progress : ∀ f, s.visited.lookup f = some false → ∃ pre post, s.visit = pre ++ f :: post ∧
    (∀ z ∈ pre, Relation.TransGen (Depends le gens) f z) ∧
    ∀ g ∈ depsOf le gens f, (s.visited.lookup g).isSome ∨ g ∈ pre
  finished : ∀ f, s.visited.lookup f = some true →
    ∀ g ∈ depsOf le gens f, (s.visited.lookup g).isSome
  linked : ∀ f v, s.visited.lookup f = some v → f ∈ gens → f ∈ s.toConnect
  seen : ∀ f ∈ s.toConnect, (s.visited.lookup f).isSome ∧
    Relation.ReflTransGen (Depends le gens) fact f

variable {le gens}

lemma isSome_lookup_insert {m : AList fun _ : F => Bool} {cur g : F} :
    ((m.insert cur v).lookup g).isSome ↔ g = cur ∨ (m.lookup g).isSome := by
  rw [lookup_isSome, mem_insert, lookup_isSome]

lemma Clean.pop {fact cur : F} {rest : List F} (h : Clean le gens fact s)
    (hcycle : NoCycle le gens fact) (hvisit : s.visit = cur :: rest)
    (hnew : s.visited.lookup cur = none → cur ∉ gens) :
    Clean le gens fact { s with visit := rest, visited := s.visited.insert cur true } := by
  have hreach := h.reachable cur (by rw [hvisit]; exact mem_cons_self)
  have hdeps : cur ∉ gens → depsOf le gens cur = [] := by
    intro hcur
    rw [depsOf, AList.lookup_eq_none.2 hcur]
  -- nothing above a link in progress is the link itself
  have hhead : s.visited.lookup cur = some false →
      ∀ g ∈ depsOf le gens cur, (s.visited.lookup g).isSome := by
    intro hfalse g hg
    obtain ⟨pre, post, heq, hpre, hopen⟩ := h.progress cur hfalse
    rw [hvisit] at heq
    cases pre with
    | nil =>
      rcases hopen g hg with hg | hg
      · exact hg
      · cases hg
    | cons z pre =>
      cases heq
      exact absurd (hpre cur (.head _)) (hcycle cur hreach)
  have hcurdeps : ∀ g ∈ depsOf le gens cur, (s.visited.lookup g).isSome := by
    intro g hg
    cases hv : s.visited.lookup cur with
    | none =>
      rw [hdeps (hnew hv)] at hg
      cases hg
    | some v =>
      cases v with
      | false => exact hhead hv g hg
      | true => exact h.finished cur hv g hg
  constructor
  · intro f hf
    exact h.reachable f (by rw [hvisit]; exact mem_cons_of_mem _ hf)
  · intro f hf
    have hne : f ≠ cur := by
      rintro rfl
      simp [lookup_insert] at hf
    simp only [lookup_insert_ne hne] at hf
    obtain ⟨pre, post, heq, hpre, hopen⟩ := h.progress f hf
    rw [hvisit] at heq
    cases pre with
    | nil =>
      cases heq
      contradiction
    | cons z pre =>
      cases heq
      refine ⟨pre, post, rfl, fun z hz => hpre z (.tail _ hz), ?_⟩
      intro g hg
      rw [isSome_lookup_insert]
      rcases hopen g hg with hg | hg
      · exact .inl (.inr hg)
      rcases List.mem_cons.1 hg with rfl | hg
      · exact .inl (.inl rfl)
      · exact .inr hg
  · intro f hf g hg
    rw [isSome_lookup_insert]
    by_cases hne : f = cur
    · exact .inr (hcurdeps g (hne ▸ hg))
    · simp only [lookup_insert_ne hne] at hf
      exact .inr (h.finished f hf g hg)
  · intro f v hf hgen
    by_cases hne : f = cur
    · subst hne
      cases hv : s.visited.lookup f with
      | none => exact absurd hgen (hnew hv)
      | some w => exact h.linked f w hv hgen
    · simp only [lookup_insert_ne hne] at hf
      exact h.linked f v hf hgen
  · intro f hf
    rw [isSome_lookup_insert]
    exact ⟨.inr (h.seen f hf).1, (h.seen f hf).2⟩

lemma Clean.push {fact cur : F} {rest ys : List F}
    (h : Clean le gens fact s) (hvisit : s.visit = cur :: rest)
    (hnew : s.visited.lookup cur = none) (hys : ∀ y, y ∈ ys ↔ y ∈ depsOf le gens cur) :
    Clean le gens fact ⟨calls, s.toConnect.insert cur q, toExpand, ys ++ cur :: rest,
      s.visited.insert cur false⟩ := by
  have hreach := h.reachable cur (by rw [hvisit]; exact mem_cons_self)
  constructor
  · intro f hf
    rcases mem_append.1 hf with hf | hf
    · exact hreach.tail ((hys f).1 hf)
    · exact h.reachable f (hvisit ▸ hf)
  · intro f hf
    by_cases hne : f = cur
    · subst hne
      refine ⟨ys, rest, rfl, fun z hz => .single ((hys z).1 hz), fun g hg => ?_⟩
      exact .inr ((hys g).2 hg)
    simp only [lookup_insert_ne hne] at hf
    obtain ⟨pre, post, heq, hpre, hopen⟩ := h.progress f hf
    rw [hvisit] at heq
    cases pre with
    | nil =>
      cases heq
      contradiction
    | cons z pre =>
      cases heq
      refine ⟨ys ++ cur :: pre, post, by simp, ?_, ?_⟩
      · intro z hz
        rcases mem_append.1 hz with hz | hz
        · exact (hpre cur (.head _)).tail ((hys z).1 hz)
        · exact hpre z hz
      intro g hg
      rw [isSome_lookup_insert]
      rcases hopen g hg with hg | hg
      · exact .inl (.inr hg)
      · exact .inr (List.mem_append_right _ hg)
  · intro f hf g hg
    rw [isSome_lookup_insert]
    have hne : f ≠ cur := by
      rintro rfl
      simp [lookup_insert] at hf
    simp only [lookup_insert_ne hne] at hf
    exact .inr (h.finished f hf g hg)
  · intro f v hf hgen
    rw [mem_insert]
    by_cases hne : f = cur
    · exact .inl hne
    · simp only [lookup_insert_ne hne] at hf
      exact .inr (h.linked f v hf hgen)
  · intro f hf
    rw [isSome_lookup_insert]
    rcases mem_insert _ |>.mp hf with rfl | hf
    · exact ⟨.inl rfl, hreach⟩
    · exact ⟨.inr (h.seen f hf).1, (h.seen f hf).2⟩

lemma Clean.step (h : Clean le gens fact s) (hcycle : NoCycle le gens fact) :
    NoLateLink le gens s ∧ Clean le gens fact (s.step le gens) := by
  constructor
  · intro cur rest p _ hnew _ _ _ f _ hf hdep
    have hmem : cur ∈ depsOf le gens f := by
      unfold linkDeps at hdep
      split at hdep
      · cases hdep
      · exact hdep
    have hvisited := h.finished f hf cur hmem
    rw [hnew] at hvisited
    cases hvisited
  unfold ChainState.step
  cases hvisit : s.visit with
  | nil => exact h
  | cons cur rest =>
    cases hnew : s.visited.lookup cur with
    | some v =>
      simp only [hnew]
      exact h.pop hcycle hvisit fun hnone => by rw [hnew] at hnone; cases hnone
    | none =>
      cases hp : gens.lookup cur with
      | none =>
        simp only [hnew, hp]
        exact h.pop hcycle hvisit fun _ => AList.lookup_eq_none.1 hp
      | some p =>
        have hdeps : depsOf le gens cur = p.assumptions le := depsOf_eq hp
        have hreach := h.reachable cur (by rw [hvisit]; exact mem_cons_self)
        simp only [hnew, hp]
        rcases @ChainState.expand_cases F _ le s cur rest p with
          ⟨i, hi, heq⟩ | ⟨hself, a, ha, hprog, heq⟩ | ⟨hself, hprog, heq⟩
        · refine absurd (Relation.TransGen.single ?_) (hcycle cur hreach)
          rw [Depends, hdeps]
          exact FreshProof.mem_assumptions.2 ⟨i, hi⟩
        · -- a link in progress would be assumed by what is above it
          have hdep : Depends le gens cur a := by
            rw [Depends, hdeps]
            exact ha
          obtain ⟨hconnect, hvisited⟩ := Bool.and_eq_true_iff.1 hprog
          cases hva : s.visited.lookup a with
          | none =>
            have hseen := (h.seen a (lookup_isSome.1 hconnect)).1
            rw [hva] at hseen
            cases hseen
          | some v =>
            have hfalse : v = false := by simpa [hva] using hvisited
            subst hfalse
            obtain ⟨pre, post, heq', hpre, _⟩ := h.progress a hva
            rw [hvisit] at heq'
            cases pre with
            | nil =>
              cases heq'
              rw [hnew] at hva
              cases hva
            | cons z pre =>
              cases heq'
              refine absurd ((hpre cur (.head _)).tail hdep) (hcycle a ?_)
              exact h.reachable a (by rw [hvisit]; simp)
        · rw [heq]
          refine h.push hvisit hnew fun y => ?_
          rw [List.mem_reverse, hdeps]

lemma clean_after (hcycle : NoCycle le gens fact) (n : Nat) :
    Clean le gens fact (.after le gens fact n) ∧
      ∀ i < n, NoLateLink le gens (.after le gens fact i) := by
  induction n with
  | zero =>
    refine ⟨⟨?_, ?_, ?_, ?_, ?_⟩, by omega⟩
    · intro f hf
      rw [mem_singleton.1 hf]
    · intro f hf
      cases hf
    · intro f hf
      cases hf
    · intro f v hf
      cases hf
    · intro f hf
      exact absurd hf (AList.notMem_empty f)
  | succ n ih =>
    obtain ⟨hclean, hlate⟩ := ih
    obtain ⟨hlast, hstep⟩ := hclean.step hcycle
    constructor
    · rw [ChainState.after, Function.iterate_succ_apply']
      exact hstep
    intro i hi
    rcases Nat.lt_succ_iff_lt_or_eq.1 hi with hi | rfl
    · exact hlate i hi
    · exact hlast

/-- What a finished traversal without cycles has connected: no link assumes itself, and the facts
that links assume and that have generators are links. -/
structure Closed (gens : AList (FreshProof F)) (le : F → F → Bool) (s : ChainState F) : Prop where
  proper : ∀ f ∈ s.toConnect, f ∉ depsOf le gens f
  closed : ∀ f ∈ s.toConnect, ∀ g ∈ depsOf le gens f, g ∈ gens → g ∈ s.toConnect

lemma Clean.closed (h : Clean le gens fact s)
    (hcycle : NoCycle le gens fact) (hend : s.visit = []) : Closed gens le s := by
  constructor
  · intro f hf hself
    exact hcycle f (h.seen f hf).2 (.single hself)
  intro f hf g hg hgen
  obtain ⟨v, hv⟩ := Option.isSome_iff_exists.1 (h.seen f hf).1
  cases v with
  | false =>
    obtain ⟨pre, post, heq, _⟩ := h.progress f hv
    rw [hend] at heq
    simp at heq
  | true =>
    obtain ⟨w, hw⟩ := Option.isSome_iff_exists.1 (h.finished f hv g hg)
    exact h.linked g w hw hgen

lemma Recorded.proper (h : Recorded le gens s) (hclosed : Closed gens le s)
    {f : F} (hr : s.toConnect.lookup f = some r) :
    ∃ p, gens.lookup f = some p ∧ f ∉ p.assumptions le ∧ r.2 = p.rootIdx ∧
      s.calls[r.1]? = some f ∧ ∀ g i, (g, i) ∈ p.freeLeaves → (r.1, i) ∈ s.toExpand g := by
  obtain ⟨hcall, p, hp, hcases⟩ := h.connected f r hr
  have hnot := hclosed.proper f (lookup_isSome.1 (by rw [hr]; rfl))
  rw [depsOf_eq hp] at hnot
  rcases hcases with ⟨_, hidx, hleaves⟩ | hleaf
  · exact ⟨p, hp, hnot, hidx, hcall, hleaves⟩
  · exact absurd (FreshProof.mem_assumptions.2 ⟨_, hleaf⟩) hnot

lemma Recorded.notMem_of_open (h : Recorded le gens s) (hclosed : Closed gens le s)
    (hr : s.toConnect.lookup f = some r) (hp : gens.lookup f = some p)
    (hleaf : LeafBelow p.nodes g leaf p.rootIdx)
    (hopen : ∀ r', s.toConnect.lookup g = some r' → (r.1, leaf) ∉ s.toExpand g) : g ∉ gens := by
  intro hgen
  obtain ⟨p', hp', _, _, _, hleaves⟩ := h.proper hclosed hr
  rw [hp, Option.some.injEq] at hp'
  subst hp'
  have hmem := FreshProof.mem_freeLeaves hleaf
  have hdep : g ∈ depsOf le gens f := by
    rw [depsOf_eq hp]
    exact FreshProof.mem_assumptions.2 ⟨leaf, hmem⟩
  have hg := hclosed.closed f (lookup_isSome.1 (by rw [hr]; rfl)) g hdep hgen
  obtain ⟨r', hr'⟩ := Option.isSome_iff_exists.1 (lookup_isSome.2 hg)
  exact hopen r' hr' (hleaves g leaf hmem)

/-- A free assumption below a pointer is without generator, or its node is free in the call and not
connected. -/
lemma Recorded.free_cases (h : Recorded le gens s)
    (hclosed : Closed gens le s) {g : F} (hfree : FreeIn (s.connect gens) g q) :
    ∀ f r p, s.toConnect.lookup f = some r → r.1 = q.1 → gens.lookup f = some p →
      g ∉ gens ∨ ∃ leaf, LeafBelow p.nodes g leaf q.2 ∧
        ∀ r', s.toConnect.lookup g = some r' → (q.1, leaf) ∉ s.toExpand g := by
  obtain ⟨hkeep, hreplace⟩ := h.connect
  induction hfree with
  | @assume q n hq hrule hresult =>
    intro f r p hr hcall hp
    obtain ⟨hcallf, _⟩ := h.connected f r hr
    rw [hcall] at hcallf
    by_cases hexpand : ∃ g' r', s.toConnect.lookup g' = some r' ∧ q ∈ s.toExpand g'
    · -- the root of a link is no assumption
      obtain ⟨g', r', hr', hmem⟩ := hexpand
      obtain ⟨p', hp', hnot, hidx, hcall', _⟩ := h.proper hclosed hr'
      rw [hreplace g' q r' hr' hmem, callMemory_eq hcall' hp', hidx, map_eq_some_iff] at hq
      obtain ⟨m, hm, rfl⟩ := hq
      exact absurd hrule (FreshProof.root_rule hnot hm)
    have hnone : ∀ g' r', s.toConnect.lookup g' = some r' → q ∉ s.toExpand g' :=
      fun g' r' hr' hmem => hexpand ⟨g', r', hr', hmem⟩
    rw [hkeep q hnone, callMemory_eq hcallf hp, map_eq_some_iff] at hq
    obtain ⟨m, hm, rfl⟩ := hq
    exact .inr ⟨q.2, .assume hm hrule hresult, fun r' hr' => hnone g r' hr'⟩
  | @child q n c hq hrule hc hscope _ ih =>
    intro f r p hr hcall hp
    obtain ⟨hcallf, _⟩ := h.connected f r hr
    rw [hcall] at hcallf
    by_cases hexpand : ∃ g' r', s.toConnect.lookup g' = some r' ∧ q ∈ s.toExpand g'
    · obtain ⟨g', r', hr', hmem⟩ := hexpand
      obtain ⟨p', hp', hnot, hidx, hcall', _⟩ := h.proper hclosed hr'
      rw [hreplace g' q r' hr' hmem] at hq
      have hchild := callMemory_child hq hc
      rw [callMemory_eq hcall' hp', hidx, map_eq_some_iff] at hq
      obtain ⟨m, hm, rfl⟩ := hq
      obtain ⟨i, hi, rfl⟩ := mem_map.1 hc
      left
      rcases ih g' r' p' hr' rfl hp' with hgen | ⟨leaf, hleaf, hopen⟩
      · exact hgen
      · exact h.notMem_of_open hclosed hr' hp' (.child hm hrule hi hscope hleaf) hopen
    have hnone : ∀ g' r', s.toConnect.lookup g' = some r' → q ∉ s.toExpand g' :=
      fun g' r' hr' hmem => hexpand ⟨g', r', hr', hmem⟩
    rw [hkeep q hnone, callMemory_eq hcallf hp, map_eq_some_iff] at hq
    obtain ⟨m, hm, rfl⟩ := hq
    obtain ⟨i, hi, rfl⟩ := mem_map.1 hc
    rcases ih f r p hr hcall hp with hgen | ⟨leaf, hleaf, hopen⟩
    · exact .inl hgen
    · exact .inr ⟨leaf, .child hm hrule hi hscope hleaf, hopen⟩

lemma no_open_link (hcycle : NoCycle le gens fact) {n : Nat}
    (hend : (ChainState.after le gens fact n).visit = []) {q : ProofPtr}
    (hq : (ChainState.after le gens fact n).toConnect.lookup fact = some q) {g : F}
    (hfree : FreeIn ((ChainState.after le gens fact n).connect gens) g q) : g ∉ gens := by
  have hrec : Recorded le gens _ := recorded_after fact n
  have hclosed := (clean_after hcycle n).1.closed hcycle hend
  obtain ⟨p, hp, _, hidx, _⟩ := hrec.proper hclosed hq
  rcases hrec.free_cases hclosed hfree fact q p hq rfl hp with hgen | ⟨leaf, hleaf, hopen⟩
  · exact hgen
  · rw [hidx] at hleaf
    exact hrec.notMem_of_open hclosed hq hp hleaf hopen

/-! ## The result of a chain -/

variable {mem : ProofPtr → Option (ProofNode F ProofPtr)}

lemma getProofFor_eq_some {n : Nat}
    {q : Option ProofPtr} (h : getProofFor le gens fact n = some (mem, q)) :
    (ChainState.after le gens fact n).visit = [] ∧
      (ChainState.after le gens fact n).connect gens = mem ∧
      (ChainState.after le gens fact n).toConnect.lookup fact = q := by
  unfold getProofFor at h
  simp only at h
  split at h
  · rename_i hend
    simp only [Option.some.injEq, Prod.mk.injEq] at h
    exact ⟨hend, h.1, h.2⟩
  · cases h

/-- The loop of `getProofFor` ends.  The proof it returns is acyclic when no round connects a link
that a finished link waits for, and without dependency cycles that holds and only facts without
generators are left open. -/
theorem getProofFor_sound (le : F → F → Bool) (gens : AList (FreshProof F)) (fact : F) :
    (∃ n, (getProofFor le gens fact n).isSome) ∧
    ∀ n mem q, getProofFor le gens fact n = some (mem, some q) →
      ((∀ i < n, NoLateLink le gens (.after le gens fact i)) → AcyclicFrom mem q) ∧
      (NoCycle le gens fact → AcyclicFrom mem q ∧ ∀ g, FreeIn mem g q → g ∉ gens) := by
  constructor
  · obtain ⟨n, hn⟩ := @exists_visit_eq_nil F _ le gens fact
    exact ⟨n, by simp [getProofFor, hn]⟩
  intro n mem q h
  obtain ⟨hend, rfl, hq⟩ := getProofFor_eq_some h
  have hacyclic : (∀ i < n, NoLateLink le gens (.after le gens fact i)) →
      AcyclicFrom ((ChainState.after le gens fact n).connect gens) q := by
    intro hlate
    obtain ⟨done, prog, hordered⟩ := ordered_after hlate
    exact acyclic_of_ordered hordered (recorded_after fact n) hq
  refine ⟨hacyclic, fun hcycle => ⟨hacyclic (clean_after hcycle n).2, fun g hfree => ?_⟩⟩
  exact no_open_link hcycle hend hq hfree

/-- A proof of a fact by one step from assumptions. -/
def FreshProof.ofStep {F : Type} (id : Nat) (f : F) (as : List F) : FreshProof F f where
  nodes := as.map (fun a => ⟨.assume, [], [a], a⟩) ++ [⟨.step id, List.range as.length, [], f⟩]
  earlier := by
    intro i n hn c hc
    rcases Nat.lt_or_ge i as.length with hi | hi
    · rw [List.getElem?_append_left (by simpa using hi), List.getElem?_map,
        map_eq_some_iff] at hn
      obtain ⟨a, _, rfl⟩ := hn
      cases hc
    rw [List.getElem?_append_right (by simpa using hi)] at hn
    have hlast := List.mem_of_getElem? hn
    rw [mem_singleton.1 hlast, List.mem_range] at hc
    omega
  assumed := by
    intro i n hn hrule
    rcases mem_append.1 (List.mem_of_getElem? hn) with hmem | hmem
    · obtain ⟨a, _, rfl⟩ := mem_map.1 hmem
      exact ⟨rfl, rfl⟩
    · rw [mem_singleton.1 hmem] at hrule
      cases hrule
  root := by simp

/-- Four facts: `0` from `1` and `2`, `1` from `2` and `3`, `2` from `3`, and `3` from `1`. -/
def crossedCycles : AList (FreshProof Nat) :=
  (((AList.singleton 0 (.ofStep 0 0 [1, 2])).insert 1 (.ofStep 1 1 [2, 3])).insert 2
    (.ofStep 2 2 [3])).insert 3 (.ofStep 3 3 [1])

omit [DecidableEq F] in
lemma child_of_mem {q c : ProofPtr}
    (h : ((mem q).map fun n => decide (c ∈ n.children)) = some true) : Child mem q c := by
  obtain ⟨n, hn, hc⟩ := map_inv h
  exact ⟨n, hn, of_decide_eq_true hc⟩

theorem getProofFor_cyclic : ∃ mem q,
    getProofFor (· ≤ ·) crossedCycles 0 11 = some (mem, some q) ∧ ¬ AcyclicFrom mem q := by
  refine ⟨(ChainState.after (· ≤ ·) crossedCycles 0 11).connect crossedCycles, (0, 2), ?_, ?_⟩
  · have hend : (ChainState.after (· ≤ ·) crossedCycles 0 11).visit = [] ∧
        (ChainState.after (· ≤ ·) crossedCycles 0 11).toConnect.lookup 0 = some (0, 2) := by
      decide +kernel
    rw [getProofFor]
    simp only [hend.1, hend.2, if_true]
  intro hacyclic
  refine hacyclic (4, 1) ?_ ?_
  · have hroot : Child ((ChainState.after (· ≤ ·) crossedCycles 0 11).connect crossedCycles)
        (0, 2) (0, 0) := child_of_mem (by decide +kernel)
    refine (Relation.ReflTransGen.single hroot).tail (child_of_mem ?_)
    decide +kernel
  have hdown : Child ((ChainState.after (· ≤ ·) crossedCycles 0 11).connect crossedCycles)
      (4, 1) (2, 0) := child_of_mem (by decide +kernel)
  refine (Relation.TransGen.single hdown).tail (child_of_mem ?_)
  decide +kernel

end EthosCpc.Cvc5
