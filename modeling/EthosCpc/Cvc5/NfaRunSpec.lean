import EthosCpc.Cvc5.NfaSpec

/-!
# Running the automata of cvc5

`addToNext` closes a set of states under the edges that read nothing,
`processNextChar` follows the edges that read a character, and `evaluate`
therefore finds a path to the accepting state if there is one.
-/

namespace EthosCpc.Cvc5

open Library NfaCache
open List (foldl_cons mem_cons mem_cons_of_mem mem_cons_self)

variable {e : Option NfaEdge}

lemma readsEdge_nil (h : readsEdge e []) : e = none := by
  cases e with
  | none => rfl
  | some e =>
    obtain ⟨c, hc, _⟩ := h
    cases hc

lemma readsEdge_singleton {c : CodePoint} (h : readsEdge e [c]) :
    ∃ e', e = some e' ∧ e'.accepts c = true := by
  cases e with
  | none => cases h
  | some e =>
    obtain ⟨d, hd, hacc⟩ := h
    injection hd with hd
    exact ⟨e, rfl, hd ▸ hacc⟩

lemma readsEdge_length {u : Str} (h : readsEdge e u) : u.length ≤ 1 := by
  cases e with
  | none =>
    rw [show u = [] from h]
    exact Nat.zero_le 1
  | some e =>
    obtain ⟨c, rfl, _⟩ := h
    exact le_rfl

lemma length_le_of_bound {n : Nat} {l : List Nat} (hnodup : l.Nodup)
    (hbound : ∀ x ∈ l, x < n) : l.length ≤ n := by
  have hsub := hnodup.subperm fun x hx => List.mem_range.2 (hbound x hx)
  simpa using hsub.length_le

section Run

variable {h : NfaCache} {n : Nat}

lemma path_cons_inv {p a : Nat} {c : CodePoint} {s : Str} (hpath : Path h.Edge p (c :: s) a) :
    ∃ p' q, Path h.Edge p [] p' ∧ h.Edge p' [c] q ∧ Path h.Edge q s a := by
  generalize hw : c :: s = w at hpath
  induction hpath with
  | nil p => cases hw
  | @cons p q r u v edge rest ih =>
    have hlen : u.length ≤ 1 := by
      obtain ⟨e, _, hreads⟩ := edge
      exact readsEdge_length hreads
    match u, hlen with
    | [], _ =>
      obtain ⟨p', q', hnull, hedge, hrest⟩ := ih hw
      exact ⟨p', q', (Path.cons edge hnull :), hedge, hrest⟩
    | [d], _ =>
      injection hw with h1 h2
      subst h1 h2
      exact ⟨p, q, .nil p, edge, rest⟩

/-- A list of states that is closed under the edges that read nothing. -/
structure NullClosed (h : NfaCache) (n : Nat) (next : List Nat) : Prop where
  nodup : next.Nodup
  bound : ∀ x ∈ next, x < n
  closed : ∀ x ∈ next, ∀ y, h.Edge x [] y → y ∈ next

variable {next : List Nat}

lemma NullClosed.mem_of_path (hc : NullClosed h n next) {p q : Nat}
    (hpath : Path h.Edge p [] q) (hp : p ∈ next) : q ∈ next := by
  generalize hw : ([] : Str) = w at hpath
  induction hpath with
  | nil p => exact hp
  | cons edge rest ih =>
    obtain ⟨rfl, rfl⟩ := List.append_eq_nil_iff.1 hw.symm
    exact ih (hc.closed _ hp _ edge) rfl

/-- What `addToNext` adds from a state. -/
structure Added (h : NfaCache) (n q : Nat) (next R : List Nat) : Prop where
  nodup : R.Nodup
  bound : ∀ x ∈ R, x < n
  subset : ∀ x ∈ next, x ∈ R
  closed : ∀ x ∈ R, x ∈ next ∨ ∀ y, h.Edge x [] y → y ∈ R
  reached : ∀ x ∈ R, x ∈ next ∨ Path h.Edge q [] x

lemma addToNext_spec (hedge : ∀ p < n, ∀ u y, h.Edge p u y → y < n) (k q : Nat)
    (next : List Nat) (hq : q < n) (hnodup : next.Nodup) (hbound : ∀ x ∈ next, x < n)
    (hfuel : n < k + next.length) :
    Added h n q next (addToNext h k q next) ∧ q ∈ addToNext h k q next := by
  induction k generalizing q next with
  | zero =>
    have hle := length_le_of_bound hnodup hbound
    omega
  | succ k ih =>
    rw [addToNext]
    split
    · rename_i hmem
      exact ⟨⟨hnodup, hbound, fun x hx => hx, fun x hx => .inl hx, fun x hx => .inl hx⟩, hmem⟩
    rename_i hmem
    -- the loop over the children, from any list that holds the state
    have hloop : ∀ cs : List (Option NfaEdge × Nat), (∀ c ∈ cs, c ∈ (h.state q).children) →
        ∀ next' : List Nat, next'.Nodup → (∀ x ∈ next', x < n) → n < k + next'.length →
          Added h n q next' (cs.foldl (fun next child =>
            if child.1 = none then addToNext h k child.2 next else next) next') ∧
          ∀ y, (none, y) ∈ cs → y ∈ cs.foldl (fun next child =>
            if child.1 = none then addToNext h k child.2 next else next) next' := by
      intro cs
      induction cs with
      | nil =>
        intro _ next' hnodup' hbound' _
        exact ⟨⟨hnodup', hbound', fun x hx => hx, fun x hx => .inl hx,
          fun x hx => .inl hx⟩, fun y hy => nomatch hy⟩
      | cons c cs ihcs =>
        intro hcs next' hnodup' hbound' hfuel'
        have hcs' := fun d hd => hcs d (mem_cons_of_mem c hd)
        rw [foldl_cons]
        by_cases hnull : c.1 = none
        · rw [if_pos hnull]
          have hchild : h.Edge q [] c.2 :=
            ⟨none, hnull ▸ hcs c mem_cons_self, rfl⟩
          obtain ⟨hadd, hin⟩ := ih c.2 next' (hedge q hq _ _ hchild) hnodup' hbound' hfuel'
          have hlen : next'.length ≤ (addToNext h k c.2 next').length :=
            (hnodup'.subperm hadd.subset).length_le
          obtain ⟨hrest, hall⟩ :=
            ihcs hcs' _ hadd.nodup hadd.bound (by omega)
          refine ⟨⟨hrest.nodup, hrest.bound, fun x hx => hrest.subset x (hadd.subset x hx),
            fun x hx => ?_, fun x hx => ?_⟩, fun y hy => ?_⟩
          · rcases hrest.closed x hx with hx' | hx'
            · exact (hadd.closed x hx').imp_right fun hall y hy =>
                hrest.subset y (hall y hy)
            · exact .inr hx'
          · rcases hrest.reached x hx with hx' | hx'
            · exact (hadd.reached x hx').imp_right fun hpath => (Path.cons hchild hpath :)
            · exact .inr hx'
          rcases mem_cons.1 hy with rfl | hy
          · exact hrest.subset y hin
          · exact hall y hy
        · rw [if_neg hnull]
          obtain ⟨hrest, hall⟩ := ihcs hcs' next' hnodup' hbound' hfuel'
          refine ⟨hrest, fun y hy => ?_⟩
          rcases mem_cons.1 hy with rfl | hy
          · contradiction
          · exact hall y hy
    obtain ⟨hadd, hall⟩ := hloop _ (fun _ hc => hc) (q :: next) (List.nodup_cons.2 ⟨hmem, hnodup⟩)
      (fun x hx => by
        rcases mem_cons.1 hx with rfl | hx
        · exact hq
        · exact hbound x hx)
      (by
        rw [List.length_cons]
        omega)
    refine ⟨⟨hadd.nodup, hadd.bound, fun x hx => hadd.subset x (mem_cons_of_mem q hx),
      fun x hx => ?_, fun x hx => ?_⟩, hadd.subset q mem_cons_self⟩
    · rcases hadd.closed x hx with hx' | hx'
      · rcases mem_cons.1 hx' with rfl | hx'
        · refine .inr fun y ⟨e, hmem, hreads⟩ => ?_
          rw [readsEdge_nil hreads] at hmem
          exact hall y hmem
        · exact .inl hx'
      · exact .inr hx'
    rcases hadd.reached x hx with hx' | hx'
    · rcases mem_cons.1 hx' with rfl | hx'
      · exact .inr (.nil x)
      · exact .inl hx'
    · exact .inr hx'

lemma nullClosed_addToNext (hedge : ∀ p < n, ∀ u y, h.Edge p u y → y < n) {q : Nat} (hq : q < n)
    (hc : NullClosed h n next) {k : Nat} (hk : n < k) :
    NullClosed h n (addToNext h k q next) ∧
      ∀ x, x ∈ addToNext h k q next ↔ x ∈ next ∨ Path h.Edge q [] x := by
  obtain ⟨hadd, hin⟩ := addToNext_spec hedge k q next hq hc.nodup hc.bound (by omega)
  have hclosed : NullClosed h n (addToNext h k q next) := by
    refine ⟨hadd.nodup, hadd.bound, fun x hx y hxy => ?_⟩
    rcases hadd.closed x hx with hx' | hx'
    · exact hadd.subset y (hc.closed x hx' y hxy)
    · exact hx' y hxy
  refine ⟨hclosed, fun x => ⟨hadd.reached x, ?_⟩⟩
  rintro (hx | hx)
  · exact hadd.subset x hx
  · exact hclosed.mem_of_path hx hin

/-- The states behind a character that is read from a state. -/
def After (h : NfaCache) (c : CodePoint) (p x : Nat) : Prop :=
  ∃ q, h.Edge p [c] q ∧ Path h.Edge q [] x

lemma nullClosed_processNextChar (hedge : ∀ p < n, ∀ u y, h.Edge p u y → y < n)
    (hn : n = h.size) (c : CodePoint) {p : Nat} (hp : p < n)
    (hc : NullClosed h n next) :
    NullClosed h n (processNextChar h c next p) ∧
      ∀ x, x ∈ processNextChar h c next p ↔ x ∈ next ∨ After h c p x := by
  have hloop : ∀ f : List Nat → Option NfaEdge × Nat → List Nat, (∀ next q, f next (none, q) = next) →
      (∀ next e q, f next (some e, q) =
        if e.accepts c then addToNext h (h.size + 1) q next else next) →
      ∀ cs : List (Option NfaEdge × Nat), (∀ d ∈ cs, d ∈ (h.state p).children) →
      ∀ next' : List Nat, NullClosed h n next' →
        let R := cs.foldl f next'
        NullClosed h n R ∧ ∀ x, x ∈ R ↔ x ∈ next' ∨
          ∃ e q, (some e, q) ∈ cs ∧ e.accepts c = true ∧ Path h.Edge q [] x := by
    intro f hnone hsome cs
    induction cs with
    | nil => exact fun _ next' hc' => ⟨hc', fun x => by simp⟩
    | cons d cs ih =>
      intro hcs next' hc'
      have hcs' := fun d' hd => hcs d' (mem_cons_of_mem d hd)
      obtain ⟨e, q⟩ := d
      have hskip : (∀ e', e = some e' → ¬ e'.accepts c = true) → ∀ x : Nat,
          (∃ e' q', (some e', q') ∈ (e, q) :: cs ∧ e'.accepts c = true ∧ Path h.Edge q' [] x) ↔
            ∃ e' q', (some e', q') ∈ cs ∧ e'.accepts c = true ∧ Path h.Edge q' [] x := by
        intro hno x
        constructor
        · rintro ⟨e', q', hmem, hacc, hpath⟩
          rcases mem_cons.1 hmem with heq | hmem
          · injection heq with h1 _
            exact absurd hacc (hno e' h1.symm)
          · exact ⟨e', q', hmem, hacc, hpath⟩
        · rintro ⟨e', q', hmem, hacc, hpath⟩
          exact ⟨e', q', .tail _ hmem, hacc, hpath⟩
      cases e with
      | none =>
        obtain ⟨hR, hx⟩ := ih hcs' next' hc'
        rw [foldl_cons, hnone]
        exact ⟨hR, fun x => (hx x).trans (or_congr_right (hskip (fun _ he => by cases he) x).symm)⟩
      | some e =>
        by_cases hacc : e.accepts c = true
        · have hmem := hcs _ (.head _)
          have hq : q < n := hedge p hp [c] q ⟨some e, hmem, c, rfl, hacc⟩
          obtain ⟨hadd, hadd'⟩ :=
            nullClosed_addToNext hedge hq hc' (show n < h.size + 1 by omega)
          obtain ⟨hR, hx⟩ := ih hcs' _ hadd
          simp only [foldl_cons, hsome, if_pos hacc]
          refine ⟨hR, fun x => (hx x).trans ?_⟩
          rw [hadd', or_assoc]
          refine or_congr_right ⟨?_, ?_⟩
          · rintro (hpath | ⟨e', q', hmem', hacc', hpath⟩)
            · exact ⟨e, q, .head _, hacc, hpath⟩
            · exact ⟨e', q', .tail _ hmem', hacc', hpath⟩
          rintro ⟨e', q', hmem', hacc', hpath⟩
          rcases mem_cons.1 hmem' with heq | hmem'
          · injection heq with _ h2
            exact .inl (h2 ▸ hpath)
          · exact .inr ⟨e', q', hmem', hacc', hpath⟩
        · obtain ⟨hR, hx⟩ := ih hcs' next' hc'
          simp only [foldl_cons, hsome, if_neg hacc]
          refine ⟨hR, fun x => (hx x).trans (or_congr_right (hskip (fun e' he => ?_) x).symm)⟩
          injection he with he
          exact he ▸ hacc
  have hrun : NullClosed h n (processNextChar h c next p) ∧ _ :=
    hloop _ (fun _ _ => rfl) (fun _ _ _ => rfl) _ (fun _ hd => hd) next hc
  obtain ⟨hR, hx⟩ := hrun
  refine ⟨hR, fun x => (hx x).trans (or_congr_right ⟨?_, ?_⟩)⟩
  · rintro ⟨e, q, hmem, hacc, hpath⟩
    exact ⟨q, ⟨some e, hmem, c, rfl, hacc⟩, hpath⟩
  rintro ⟨q, ⟨e, hmem, hreads⟩, hpath⟩
  obtain ⟨e', rfl, hacc⟩ := readsEdge_singleton hreads
  exact ⟨e', q, hmem, hacc, hpath⟩

lemma nullClosed_step (hedge : ∀ p < n, ∀ u y, h.Edge p u y → y < n) (hn : n = h.size)
    (c : CodePoint) (curr next : List Nat) (hcurr : ∀ p ∈ curr, p < n)
    (hc : NullClosed h n next) :
    NullClosed h n (curr.foldl (processNextChar h c) next) ∧
      ∀ x, x ∈ curr.foldl (processNextChar h c) next ↔ x ∈ next ∨ ∃ p ∈ curr, After h c p x := by
  induction curr generalizing next with
  | nil => exact ⟨hc, fun x => by simp⟩
  | cons p curr ih =>
    obtain ⟨hp, hp'⟩ :=
      nullClosed_processNextChar hedge hn c (hcurr p (.head _)) hc
    obtain ⟨hR, hx⟩ := ih _ (fun q hq => hcurr q (mem_cons_of_mem p hq)) hp
    refine ⟨hR, fun x => (hx x).trans ?_⟩
    rw [hp', or_assoc]
    simp

lemma nullClosed_nil : NullClosed h n [] :=
  ⟨List.nodup_nil, fun _ hx => (nomatch hx), fun _ hx => (nomatch hx)⟩

lemma evaluateFrom_iff (hedge : ∀ p < n, ∀ u y, h.Edge p u y → y < n) (hn : n = h.size)
    (accept : Nat) (s : Str) (curr : List Nat) (hc : NullClosed h n curr) :
    evaluateFrom h accept s curr = true ↔ ∃ p ∈ curr, Path h.Edge p s accept := by
  induction s generalizing curr with
  | nil =>
    rw [evaluateFrom, decide_eq_true_iff]
    constructor
    · exact fun hmem => ⟨accept, hmem, .nil accept⟩
    · rintro ⟨p, hp, hpath⟩
      exact hc.mem_of_path hpath hp
  | cons c s ih =>
    obtain ⟨hR, hx⟩ := nullClosed_step hedge hn c curr [] hc.bound nullClosed_nil
    have hstep : (∃ p ∈ curr, Path h.Edge p (c :: s) accept) ↔
        ∃ x ∈ curr.foldl (processNextChar h c) [], Path h.Edge x s accept := by
      constructor
      · rintro ⟨p, hp, hpath⟩
        obtain ⟨p', q, hnull, hedge', hrest⟩ := path_cons_inv hpath
        exact ⟨q, (hx q).2 (.inr ⟨p', hc.mem_of_path hnull hp, q, hedge', .nil q⟩), hrest⟩
      rintro ⟨x, hmem, hpath⟩
      rcases (hx x).1 hmem with hnil | ⟨p, hp, q, hedge', hnull⟩
      · cases hnil
      · exact ⟨p, hp, (Path.cons hedge' (hnull.append hpath) :)⟩
    rw [hstep, evaluateFrom]
    split
    · rename_i hnil
      rw [hnil]
      simp
    · exact ih _ hR

end Run

lemma evaluate_iff (s : Str) {r : Regex} (hev : canEvaluate r = true) :
    evaluate s r = true ↔ s ∈ r.lang := by
  unfold evaluate construct
  generalize hinit : (NfaCache.allocateState ⟨0, fun _ => ⟨[], []⟩⟩) = init
  obtain ⟨accept, h0⟩ := init
  have haccept : accept = 0 := (congrArg Prod.fst hinit).symm
  have hsize0 : h0.size = 1 := congrArg (fun i => i.2.size) hinit.symm
  have hstate0 : h0.state 0 = ⟨[], []⟩ := congrArg (fun i => i.2.state 0) hinit.symm
  dsimp only
  have hb := built_constructInternal r hev h0
  generalize constructInternal r h0 = res at hb ⊢
  obtain ⟨rs, h'⟩ := res
  dsimp only at hb ⊢
  subst haccept
  have hsize : (h'.connectTo rs 0).size = h'.size := size_connectTo _
  have hD : (0 : Nat) ∉ statesFrom h0.size h'.size := fun hm => absurd hm.1 (by omega)
  have hstate : h'.state 0 = ⟨[], []⟩ := (hb.frame 0 (by omega)).trans hstate0
  have hfrom0 : ∀ u q, ¬ (h'.connectTo rs 0).Edge 0 u q := by
    intro u q hpq
    rcases (h'.edge_connectTo).1 hpq with ⟨e, hmem, _⟩ | ⟨hloose, _⟩
    · rw [hstate] at hmem
      cases hmem
    · exact hD (hb.fragment.loose 0 u hloose)
  have hedge : ∀ p < h'.size, ∀ u y, (h'.connectTo rs 0).Edge p u y → y < h'.size := by
    intro p hp u y hpy
    by_cases hp0 : p = 0
    · exact absurd (hp0 ▸ hpy) (hfrom0 u y)
    have hmem : p ∈ statesFrom h0.size h'.size := ⟨by omega, hp⟩
    rcases (h'.edge_connectTo).1 hpy with hedge | ⟨_, rfl⟩
    · exact (hb.fragment.closed p u y hmem hedge).2
    · omega
  have hrs : rs < h'.size := hb.curr_mem.2
  obtain ⟨hclosed, hmem⟩ := nullClosed_addToNext hedge hrs nullClosed_nil
    (show h'.size < (h'.connectTo rs 0).size + 1 by omega)
  rw [evaluateFrom_iff hedge hsize.symm 0 s _ hclosed, hb.fragment.accept hD hfrom0
    (fun p u q _ => h'.edge_connectTo) s]
  constructor
  · rintro ⟨p, hp, hpath⟩
    rcases (hmem p).1 hp with hnil | hnull
    · cases hnil
    · exact (hnull.append hpath :)
  · intro hpath
    exact ⟨rs, (hmem rs).2 (.inr (.nil rs)), hpath⟩

end EthosCpc.Cvc5
