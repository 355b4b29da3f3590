import EthosCpc.Cvc5.LazyProofChain

/-!
# The order of the links of a chain

The links that are connected stay in an order in which a link comes after the
links it assumes: those finished, then those in progress from the top of the
stack down (`Ordered`).  One round keeps the order unless it connects a link
that a finished link already waits for (`NoLateLink`), which happens when the
link had been dropped for a cycle with another one and is met again later.
-/

namespace EthosCpc.Cvc5

open List (mem_append mem_append_left mem_append_right mem_cons mem_cons_of_mem mem_cons_self
  mem_filter nodup_cons)
open AList (lookup_insert lookup_insert_ne mem_erase mem_insert)

variable {F : Type} [DecidableEq F]

/-! ## Stacks and links in progress -/

/-- The links in progress are on the stack, each below the ones after it was met. -/
def StackOk : List F → List F → Prop
  | _, [] => True
  | visit, w :: ws => ∃ pre post, visit = pre ++ w :: post ∧ (∀ z ∈ pre, z ∉ w :: ws) ∧
      StackOk post ws

omit [DecidableEq F] in
lemma StackOk.pop {c : F} {rest prog : List F} (h : StackOk (c :: rest) prog) (hc : c ∉ prog) :
    StackOk rest prog := by
  cases prog with
  | nil => trivial
  | cons w ws =>
    obtain ⟨pre, post, heq, hpre, hpost⟩ := h
    cases pre with
    | nil =>
      cases heq
      exact absurd (.head _) hc
    | cons d pre =>
      cases heq
      exact ⟨pre, post, rfl, fun z hz => hpre z (.tail _ hz), hpost⟩

omit [DecidableEq F] in
lemma StackOk.popHead {c : F} {rest prog : List F} (h : StackOk (c :: rest) prog)
    (hc : c ∈ prog) : ∃ ws, prog = c :: ws ∧ StackOk rest ws := by
  cases prog with
  | nil => cases hc
  | cons w ws =>
    obtain ⟨pre, post, heq, hpre, hpost⟩ := h
    cases pre with
    | nil =>
      cases heq
      exact ⟨ws, rfl, hpost⟩
    | cons d pre =>
      cases heq
      exact absurd hc (hpre _ (.head _))

omit [DecidableEq F] in
lemma StackOk.push {ys rest prog : List F} (h : StackOk rest prog) (hys : ∀ y ∈ ys, y ∉ prog) :
    StackOk (ys ++ rest) prog := by
  cases prog with
  | nil => trivial
  | cons w ws =>
    obtain ⟨pre, post, rfl, hpre, hpost⟩ := h
    refine ⟨ys ++ pre, post, by rw [List.append_assoc], ?_, hpost⟩
    intro z hz
    rcases mem_append.1 hz with hz | hz
    · exact hys z hz
    · exact hpre z hz

lemma StackOk.filter {visit prog : List F} (h : StackOk visit prog) (hnodup : prog.Nodup)
    (a : F) : StackOk visit (prog.filter (· ≠ a)) := by
  induction prog generalizing visit with
  | nil => trivial
  | cons w ws ih =>
    obtain ⟨pre, post, rfl, hpre, hpost⟩ := h
    obtain ⟨hw, hnodup'⟩ := nodup_cons.1 hnodup
    have hrest := ih hpost hnodup'
    by_cases hwa : w = a
    · rw [List.filter_cons_of_neg (by simpa using hwa), List.append_cons]
      refine hrest.push ?_
      intro y hy hmem
      have hyws := (mem_filter.1 hmem).1
      rcases mem_append.1 hy with hy | hy
      · exact hpre y hy (.tail _ hyws)
      · exact hw (List.mem_singleton.1 hy ▸ hyws)
    rw [List.filter_cons_of_pos (by simpa using hwa)]
    refine ⟨pre, post, rfl, ?_, hrest⟩
    intro z hz hmem
    rcases mem_cons.1 hmem with rfl | hmem
    · exact hpre z hz (.head _)
    · exact hpre z hz (.tail _ (mem_filter.1 hmem).1)

/-! ## The order of the links -/

variable (le : F → F → Bool) (gens : AList (FreshProof F))

/-- The free assumptions of the proof of a fact. -/
def depsOf (f : F) : List F :=
  match gens.lookup f with
  | none => []
  | some p => p.assumptions le

/-- The links that a connected fact waits for: none if it assumes itself. -/
def linkDeps (f : F) : List F := if f ∈ depsOf le gens f then [] else depsOf le gens f

/-- No link is connected by this round that a finished, connected link waits for. -/
def NoLateLink (s : ChainState F) : Prop :=
  ∀ cur rest p, s.visit = cur :: rest → s.visited.lookup cur = none → gens.lookup cur = some p →
    cur ∉ p.assumptions le → (∀ a ∈ p.assumptions le, s.inProgress a = false) →
      ∀ f ∈ s.toConnect, s.visited.lookup f = some true → cur ∉ linkDeps le gens f

/-- The connected links in an order in which none comes before a link it waits for. -/
structure Ordered (s : ChainState F) (done prog : List F) : Prop where
  nodup : (done ++ prog).Nodup
  connected : ∀ f ∈ s.toConnect, f ∈ done ++ prog
  doneVisited : ∀ f ∈ done, s.visited.lookup f = some true
  progVisited : ∀ f ∈ prog, s.visited.lookup f = some false ∧ f ∈ s.toConnect
  backward : (done ++ prog).Pairwise fun f g =>
    f ∈ s.toConnect → g ∈ s.toConnect → g ∉ linkDeps le gens f
  stack : StackOk s.visit prog

variable {le gens}

variable {s : ChainState F}

lemma inProgress_of_mem {f : F} (hv : s.visited.lookup f = some false)
    (hf : f ∈ s.toConnect) : s.inProgress f = true := by
  rw [ChainState.inProgress, hv, AList.lookup_isSome.2 hf]
  rfl

variable {cur : F}

lemma Ordered.notMem_of_new {done prog : List F}
    (h : Ordered le gens s done prog) (hnew : s.visited.lookup cur = none) :
    cur ∉ done ++ prog := by
  intro hmem
  rcases mem_append.1 hmem with hd | hp
  · rw [h.doneVisited cur hd] at hnew
    contradiction
  · rw [(h.progVisited cur hp).1] at hnew
    contradiction

lemma Ordered.finish {done prog rest : List F}
    (h : Ordered le gens s done prog) (hvisit : s.visit = cur :: rest) :
    ∃ done' prog', Ordered le gens
      { s with visit := rest, visited := s.visited.insert cur true } done' prog' := by
  have hstack := h.stack
  rw [hvisit] at hstack
  have hdone : ∀ f ∈ done, (s.visited.insert cur true).lookup f = some true := by
    intro f hf
    by_cases hfc : f = cur
    · rw [hfc, lookup_insert]
    · rw [lookup_insert_ne hfc, h.doneVisited f hf]
  by_cases hcur : cur ∈ prog
  · obtain ⟨ws, rfl, hrest⟩ := hstack.popHead hcur
    have hsame : (done ++ [cur]) ++ ws = done ++ cur :: ws := by simp
    refine ⟨done ++ [cur], ws, ?_, ?_, ?_, ?_, ?_, hrest⟩
    · rw [hsame]
      exact h.nodup
    · rw [hsame]
      exact h.connected
    · intro f hf
      rcases mem_append.1 hf with hf | hf
      · exact hdone f hf
      · rw [List.mem_singleton.1 hf]
        exact lookup_insert _
    · intro f hf
      have hne : f ≠ cur := by
        rintro rfl
        have hnodup := (List.nodup_append.1 h.nodup).2.1
        exact (nodup_cons.1 hnodup).1 hf
      obtain ⟨hv, hc⟩ := h.progVisited f (.tail _ hf)
      exact ⟨by simpa only [lookup_insert_ne hne] using hv, hc⟩
    · rw [hsame]
      exact h.backward
  · refine ⟨done, prog, h.nodup, h.connected, hdone, ?_, h.backward, hstack.pop hcur⟩
    intro f hf
    have hne : f ≠ cur := by
      rintro rfl
      exact hcur hf
    obtain ⟨hv, hc⟩ := h.progVisited f hf
    exact ⟨by simpa only [lookup_insert_ne hne] using hv, hc⟩

variable {done prog rest calls : List F}

/-- A fact that assumes itself is connected to one of its own leaves. -/
lemma Ordered.trivial {q : ProofPtr}
    (h : Ordered le gens s done prog) (hvisit : s.visit = cur :: rest)
    (hnew : s.visited.lookup cur = none) (hself : cur ∈ depsOf le gens cur) :
    Ordered le gens ⟨calls, s.toConnect.insert cur q, s.toExpand, rest, s.visited.insert cur true⟩
      (cur :: done) prog := by
  have hfresh := h.notMem_of_new hnew
  have hne : ∀ f ∈ done ++ prog, f ≠ cur := by
    rintro f hf rfl
    exact hfresh hf
  have hstack := h.stack
  rw [hvisit] at hstack
  refine ⟨nodup_cons.2 ⟨hfresh, h.nodup⟩, ?_, ?_, ?_, ?_, ?_⟩
  · intro f hf
    rcases mem_insert _ |>.mp hf with rfl | hf
    · exact .head _
    · exact .tail _ (h.connected f hf)
  · intro f hf
    rcases mem_cons.1 hf with rfl | hf
    · exact lookup_insert _
    · have hfc := hne f (mem_append_left _ hf)
      simpa only [lookup_insert_ne hfc] using h.doneVisited f hf
  · intro f hf
    have hfc := hne f (mem_append_right _ hf)
    obtain ⟨hv, hc⟩ := h.progVisited f hf
    exact ⟨by simpa only [lookup_insert_ne hfc] using hv, mem_insert _ |>.mpr (.inr hc)⟩
  · rw [List.cons_append]
    refine List.pairwise_cons.2 ⟨fun g _ _ _ => ?_, ?_⟩
    · simp [linkDeps, hself]
    refine h.backward.imp_of_mem fun {f g} hf hg hfg hfc hgc => hfg ?_ ?_
    · exact (mem_insert _ |>.mp hfc).resolve_left (hne f hf)
    · exact (mem_insert _ |>.mp hgc).resolve_left (hne g hg)
  · exact hstack.pop fun hp => hfresh (mem_append_right _ hp)

/-- A link that assumes a link in progress is dropped, and so is that link. -/
lemma Ordered.drop {cur a : F} (h : Ordered le gens s done prog) (hvisit : s.visit = cur :: rest)
    (hnew : s.visited.lookup cur = none) :
    Ordered le gens ⟨calls, (s.toConnect.erase a).erase cur, s.toExpand, rest, s.visited⟩
      done (prog.filter (· ≠ a)) := by
  have hfresh := h.notMem_of_new hnew
  have hstack := h.stack
  rw [hvisit] at hstack
  have hsub : (done ++ prog.filter (· ≠ a)).Sublist (done ++ prog) :=
    List.Sublist.append_left List.filter_sublist done
  have hmem : ∀ f, f ∈ (s.toConnect.erase a).erase cur → f ∈ s.toConnect ∧ f ≠ a := by
    intro f hf
    have hf' := (mem_erase.1 hf).2
    exact ⟨(mem_erase.1 hf').2, (mem_erase.1 hf').1⟩
  refine ⟨h.nodup.sublist hsub, ?_, h.doneVisited, ?_, ?_, ?_⟩
  · intro f hf
    obtain ⟨hfc, hfa⟩ := hmem f hf
    rcases mem_append.1 (h.connected f hfc) with hd | hp
    · exact mem_append_left _ hd
    · exact mem_append_right _ (mem_filter.2 ⟨hp, by simpa using hfa⟩)
  · intro f hf
    obtain ⟨hfp, hfa⟩ := mem_filter.1 hf
    obtain ⟨hv, hc⟩ := h.progVisited f hfp
    refine ⟨hv, mem_erase.2 ⟨?_, mem_erase.2 ⟨by simpa using hfa, hc⟩⟩⟩
    rintro rfl
    exact hfresh (mem_append_right _ hfp)
  · exact (h.backward.sublist hsub).imp fun hfg hfc hgc => hfg (hmem _ hfc).1 (hmem _ hgc).1
  · have hprog := (List.nodup_append.1 h.nodup).2.1
    exact (hstack.pop fun hp => hfresh (mem_append_right _ hp)).filter hprog a

/-- A link is connected and its assumptions are put on the stack above it. -/
lemma Ordered.link {q : ProofPtr}
    {toExpand : F → List ProofPtr} {ys : List F} (h : Ordered le gens s done prog)
    (hvisit : s.visit = cur :: rest) (hnew : s.visited.lookup cur = none)
    (hys : ∀ y, y ∈ ys ↔ y ∈ depsOf le gens cur) (hself : cur ∉ depsOf le gens cur)
    (hprogress : ∀ a ∈ depsOf le gens cur, s.inProgress a = false)
    (hlate : ∀ f ∈ s.toConnect, s.visited.lookup f = some true → cur ∉ linkDeps le gens f) :
    Ordered le gens ⟨calls, s.toConnect.insert cur q, toExpand, ys ++ cur :: rest,
      s.visited.insert cur false⟩ done (cur :: prog) := by
  have hfresh := h.notMem_of_new hnew
  have hne : ∀ f ∈ done ++ prog, f ≠ cur := by
    rintro f hf rfl
    exact hfresh hf
  have hstack := h.stack
  rw [hvisit] at hstack
  have hdisjoint : ∀ y ∈ ys, y ∉ cur :: prog := by
    intro y hy hmem
    have hdep := (hys y).1 hy
    rcases mem_cons.1 hmem with rfl | hp
    · exact hself hdep
    obtain ⟨hv, hc⟩ := h.progVisited y hp
    have hprog := hprogress y hdep
    rw [inProgress_of_mem hv hc] at hprog
    contradiction
  have hrest := hstack.pop fun hp => hfresh (mem_append_right _ hp)
  refine ⟨?_, ?_, ?_, ?_, ?_, ⟨ys, rest, rfl, hdisjoint, hrest⟩⟩
  · rw [List.nodup_middle]
    exact nodup_cons.2 ⟨hfresh, h.nodup⟩
  · intro f hf
    rcases mem_insert _ |>.mp hf with rfl | hf
    · simp
    rcases mem_append.1 (h.connected f hf) with hd | hp
    · exact mem_append_left _ hd
    · exact mem_append_right _ (.tail _ hp)
  · intro f hf
    have hfc := hne f (mem_append_left _ hf)
    simpa only [lookup_insert_ne hfc] using h.doneVisited f hf
  · intro f hf
    rcases mem_cons.1 hf with rfl | hf
    · exact ⟨lookup_insert _, mem_insert _ |>.mpr (.inl rfl)⟩
    have hfc := hne f (mem_append_right _ hf)
    obtain ⟨hv, hc⟩ := h.progVisited f hf
    exact ⟨by simpa only [lookup_insert_ne hfc] using hv,
      mem_insert _ |>.mpr (.inr hc)⟩
  have hold : ∀ f ∈ done ++ prog, f ∈ s.toConnect.insert cur q → f ∈ s.toConnect :=
    fun f hf hfc => (mem_insert _ |>.mp hfc).resolve_left (hne f hf)
  obtain ⟨hdone, hprog, hcross⟩ := List.pairwise_append.1 h.backward
  refine List.pairwise_append.2 ⟨?_, List.pairwise_cons.2 ⟨?_, ?_⟩, ?_⟩
  · exact hdone.imp_of_mem fun {f g} hf hg hfg hfc hgc =>
      hfg (hold f (mem_append_left _ hf) hfc) (hold g (mem_append_left _ hg) hgc)
  · -- nothing in progress is assumed
    intro g hg _ _ hdep
    have hdep' : g ∈ depsOf le gens cur := by rwa [linkDeps, if_neg hself] at hdep
    obtain ⟨hv, hc⟩ := h.progVisited g hg
    have hprogg := hprogress g hdep'
    rw [inProgress_of_mem hv hc] at hprogg
    contradiction
  · exact hprog.imp_of_mem fun {f g} hf hg hfg hfc hgc =>
      hfg (hold f (mem_append_right _ hf) hfc) (hold g (mem_append_right _ hg) hgc)
  intro f hf g hg hfc hgc
  have hfc' := hold f (mem_append_left _ hf) hfc
  rcases mem_cons.1 hg with rfl | hg
  · exact hlate f hfc' (h.doneVisited f hf)
  · exact hcross f hf g hg hfc' (hold g (mem_append_right _ hg) hgc)

lemma depsOf_eq {p : FreshProof F cur} (hp : gens.lookup cur = some p) :
    depsOf le gens cur = p.assumptions le := by
  rw [depsOf, hp]

lemma FreshProof.mem_assumptions {f g : F} {p : FreshProof F f} :
    g ∈ p.assumptions le ↔ ∃ i, (g, i) ∈ p.freeLeaves := by
  unfold FreshProof.assumptions
  simp

lemma ChainState.expand_cases (s : ChainState F) (cur : F) (rest : List F) (p : FreshProof F cur) :
    (∃ i, (cur, i) ∈ p.freeLeaves ∧ s.expand le cur rest p =
      ⟨s.calls ++ [cur], s.toConnect.insert cur (s.calls.length, i), s.toExpand, rest,
        s.visited.insert cur true⟩) ∨
    (cur ∉ p.assumptions le ∧ ∃ a ∈ p.assumptions le, s.inProgress a = true ∧
      s.expand le cur rest p =
        ⟨s.calls ++ [cur], (s.toConnect.erase a).erase cur, s.toExpand, rest, s.visited⟩) ∨
    (cur ∉ p.assumptions le ∧ (∀ a ∈ p.assumptions le, s.inProgress a = false) ∧
      s.expand le cur rest p =
        ⟨s.calls ++ [cur], s.toConnect.insert cur (s.calls.length, p.rootIdx),
          addToExpand s.toExpand s.calls.length p.freeLeaves,
          (p.assumptions le).reverse ++ cur :: rest, s.visited.insert cur false⟩) := by
  unfold ChainState.expand
  cases htriv : p.freeLeaves.find? fun a => a.1 = cur with
  | some a =>
    left
    obtain ⟨g, i⟩ := a
    have ha : g = cur := by simpa using List.find?_some htriv
    have hmem := List.mem_of_find?_eq_some htriv
    rw [ha] at hmem
    exact ⟨i, hmem, rfl⟩
  | none =>
    right
    have hself : cur ∉ p.assumptions le := by
      intro hmem
      obtain ⟨i, hi⟩ := FreshProof.mem_assumptions.1 hmem
      have hnone := List.find?_eq_none.1 htriv (cur, i) hi
      simp at hnone
    cases hprog : (p.assumptions le).find? s.inProgress with
    | some a =>
      left
      exact ⟨hself, a, List.mem_of_find?_eq_some hprog, List.find?_some hprog, rfl⟩
    | none =>
      right
      refine ⟨hself, fun a ha => ?_, rfl⟩
      simpa using List.find?_eq_none.1 hprog a ha

lemma Ordered.step {done prog : List F} (h : Ordered le gens s done prog)
    (hlate : NoLateLink le gens s) :
    ∃ done' prog', Ordered le gens (s.step le gens) done' prog' := by
  unfold ChainState.step
  cases hvisit : s.visit with
  | nil => exact ⟨done, prog, h⟩
  | cons cur rest =>
    cases hnew : s.visited.lookup cur with
    | some v =>
      simp only [hnew]
      exact h.finish hvisit
    | none =>
      cases hp : gens.lookup cur with
      | none =>
        simp only [hnew, hp]
        exact h.finish hvisit
      | some p =>
        have hdeps : depsOf le gens cur = p.assumptions le := depsOf_eq hp
        simp only [hnew, hp]
        rcases ChainState.expand_cases s cur rest p with
          ⟨i, hi, heq⟩ | ⟨hself, a, ha, hprog, heq⟩ | ⟨hself, hprog, heq⟩
        · rw [heq]
          refine ⟨_, _, h.trivial hvisit hnew ?_⟩
          rw [hdeps]
          exact FreshProof.mem_assumptions.2 ⟨i, hi⟩
        · rw [heq]
          exact ⟨_, _, h.drop hvisit hnew⟩
        rw [heq]
        refine ⟨_, _, h.link hvisit hnew ?_ ?_ ?_ ?_⟩
        · intro y
          rw [List.mem_reverse, hdeps]
        · rwa [hdeps]
        · rwa [hdeps]
        · exact hlate cur rest p hvisit hnew hp hself hprog

lemma ordered_init (fact : F) : Ordered le gens (.init fact) [] [] where
  nodup := List.nodup_nil
  connected := by
    intro f hf
    exact absurd hf (AList.notMem_empty f)
  doneVisited := by simp
  progVisited := by simp
  backward := List.Pairwise.nil
  stack := trivial

lemma ordered_after {fact : F} {n : Nat}
    (hlate : ∀ i < n, NoLateLink le gens (.after le gens fact i)) :
    ∃ done prog, Ordered le gens (.after le gens fact n) done prog := by
  induction n with
  | zero => exact ⟨[], [], ordered_init fact⟩
  | succ n ih =>
    obtain ⟨done, prog, h⟩ := ih fun i hi => hlate i (by omega)
    rw [ChainState.after, Function.iterate_succ_apply']
    exact h.step (hlate n (by omega))

end EthosCpc.Cvc5
