import EthosCpc.Cvc5.Substitutions
import Mathlib.Order.WellFoundedSet
import EthosCpc.Library.Inversion

/-!
# Applying a substitution map is the full substitution

`Full σ t u` says that `u` is `t` with every symbol of the domain of `σ` replaced,
repeatedly through the ranges.  When the ranges depend on one another without a
cycle, there is exactly one such `u`, and no symbol of the domain occurs in it.

The traversal is followed against `σ`, the substitutions added and not popped or
erased, and not against the contents of the map, which compression changes while
the traversal runs (`Matches`).  What a visit preserves is `Good`: every entry of
the cache is a full substitution.
-/

namespace EthosCpc.Cvc5.Substitutions

open Node Relation
open Option (isSome_iff_exists map_some some.inj)
open List (Forall₂ map_cons mem_cons_of_mem mem_cons_self mem_map)
open Function (update update_of_ne update_self)
open AList (lookup_insert lookup_insert_ne)

/-! ## The full substitution -/

/-- The substitutions that have been added and not popped or erased. -/
abbrev Subst : Type := Nat → Option Node

variable {σ σ' : Subst} {x y : Nat} {s t u v n : Node} {k : Kind} {cs ds : List Node}

inductive Occurs (x : Nat) : Node → Prop
  | sym : Occurs x (.sym x)
  | part {k : Kind} {cs : List Node} {c : Node} : c ∈ cs → Occurs x c → Occurs x (.app k cs)

lemma occurs_app : Occurs x (.app k cs) ↔ ∃ c ∈ cs, Occurs x c := by
  constructor
  · rintro (_ | ⟨hc, h⟩)
    exact ⟨_, hc, h⟩
  · rintro ⟨c, hc, h⟩
    exact .part hc h

/-- The node with every symbol of the domain replaced, also in the ranges. -/
inductive Full (σ : Subst) : Node → Node → Prop
  | range {x : Nat} {t u : Node} : σ x = some t → Full σ t u → Full σ (.sym x) u
  | sym {x : Nat} : σ x = none → Full σ (.sym x) (.sym x)
  | bvar (v : Nat) : Full σ (.leaf (.bvar v)) (.leaf (.bvar v))
  | const (c : Nat) : Full σ (.leaf (.const c)) (.leaf (.const c))
  | app (k : Kind) {cs ds : List Node} : cs.length = ds.length →
      (∀ p ∈ cs.zip ds, Full σ p.1 p.2) → Full σ (.app k cs) (.app k ds)

lemma full_app : Full σ (.app k cs) u ↔ ∃ ds, u = .app k ds ∧ Forall₂ (Full σ) cs ds := by
  constructor
  · rintro (_ | _ | _ | _ | ⟨_, hlen, h⟩)
    exact ⟨_, rfl, List.forall₂_iff_zip.2 ⟨hlen, fun hp => h _ hp⟩⟩
  rintro ⟨ds, rfl, h⟩
  obtain ⟨hlen, hzip⟩ := List.forall₂_iff_zip.1 h
  exact .app k hlen fun p hp => hzip hp

lemma full_sym_some (h : σ x = some t) : Full σ (.sym x) u ↔ Full σ t u := by
  constructor
  · intro hu
    cases hu with
    | range h' hu =>
      cases h.symm.trans h'
      exact hu
    | sym h' => cases h.symm.trans h'
  · exact .range h

lemma full_sym_none (h : σ x = none) : Full σ (.sym x) u ↔ u = .sym x := by
  constructor
  · intro hu
    cases hu with
    | range h' hu => cases h.symm.trans h'
    | sym _ => rfl
  · rintro rfl
    exact .sym h

/-- Induction on a full substitution, with the hypothesis for all parts of a node. -/
lemma Full.rec' {motive : ∀ t u, Full σ t u → Prop}
    (range : ∀ {x t u} (hx : σ x = some t) (hu : Full σ t u), motive t u hu →
      motive (.sym x) u (.range hx hu))
    (sym : ∀ {x} (hx : σ x = none), motive (.sym x) (.sym x) (.sym hx))
    (bvar : ∀ v, motive _ _ (.bvar v)) (const : ∀ c, motive _ _ (.const c))
    (app : ∀ k {cs ds} (hlen : cs.length = ds.length) (h : ∀ p ∈ cs.zip ds, Full σ p.1 p.2),
      Forall₂ (fun c d => ∃ hcd, motive c d hcd) cs ds → motive _ _ (.app k hlen h))
    (h : Full σ t u) : motive t u h := by
  induction h with
  | range hx hu ih => exact range hx hu ih
  | sym hx => exact sym hx
  | bvar v => exact bvar v
  | const c => exact const c
  | app k hlen h ih =>
    exact app k hlen h (List.forall₂_iff_zip.2 ⟨hlen, fun hp => ⟨h _ hp, ih _ hp⟩⟩)

lemma Full.unique (h : Full σ t u) (h' : Full σ t v) : u = v := by
  induction h using Full.rec' generalizing v with
  | range hx _ ih => exact ih ((full_sym_some hx).1 h')
  | sym hx => exact ((full_sym_none hx).1 h').symm
  | bvar =>
    cases h'
    rfl
  | const =>
    cases h'
    rfl
  | app k hlen hall ih =>
    obtain ⟨es, rfl, hes⟩ := full_app.1 h'
    clear h' hall hlen
    congr 1
    induction ih generalizing es with
    | nil =>
      cases hes
      rfl
    | cons hd _ ihs =>
      cases hes with
      | cons he hes =>
        obtain ⟨_, hd⟩ := hd
        rw [hd he, ihs _ hes]

lemma exists_of_forall₂ {R : Node → Node → Prop} (h : Forall₂ R cs ds) {d : Node}
    (hd : d ∈ ds) : ∃ c ∈ cs, R c d := by
  induction h with
  | nil => cases hd
  | cons hc _ ih =>
    rcases List.mem_cons.1 hd with rfl | hd
    · exact ⟨_, .head _, hc⟩
    · obtain ⟨c, hmem, hcd⟩ := ih hd
      exact ⟨c, .tail _ hmem, hcd⟩

lemma Full.clean (h : Full σ t u) (hx : Occurs x u) : σ x = none := by
  induction h using Full.rec' with
  | range _ _ ih => exact ih hx
  | sym h' =>
    cases hx
    exact h'
  | bvar | const => cases hx
  | app k _ _ ih =>
    obtain ⟨d, hd, hxd⟩ := occurs_app.1 hx
    obtain ⟨c, _, _, hcd⟩ := exists_of_forall₂ ih hd
    exact hcd hxd

lemma full_self (h : ∀ x, Occurs x u → σ x = none) : Full σ u u := by
  induction u with
  | leaf l =>
    cases l with
    | sym x => exact .sym (h x .sym)
    | bvar v => exact .bvar v
    | const c => exact .const c
  | app k cs ih =>
    refine full_app.2 ⟨cs, rfl, List.forall₂_same.2 fun c hc => ?_⟩
    exact ih c hc fun x hx => h x (.part hc hx)

lemma Full.idem (h : Full σ t u) : Full σ u u := full_self fun _ => h.clean

/-! ## Dependencies between the symbols -/

/-- The range of `x` contains `y`. -/
def Uses (σ : Subst) (x y : Nat) : Prop := ∃ t, σ x = some t ∧ Occurs y t

abbrev Reach (σ : Subst) : Nat → Nat → Prop := TransGen (Uses σ)

def Acyclic (σ : Subst) : Prop := ∀ x, ¬Reach σ x x

def FiniteDomain (σ : Subst) : Prop := {x | (σ x).isSome}.Finite

lemma isSome_of_reach (h : Reach σ x y) : (σ x).isSome := by
  obtain ⟨z, ⟨t, ht, _⟩, _⟩ := TransGen.head'_iff.1 h
  rw [ht]
  rfl

/-- Induction on a symbol, with a hypothesis for every symbol that its range depends on. -/
lemma Acyclic.induction (hac : Acyclic σ) (hfin : FiniteDomain σ) {P : Nat → Prop}
    (h : ∀ x, (∀ y, Reach σ x y → P y) → P x) (x : Nat) : P x := by
  have hstrict : IsStrictOrder Nat fun a b => Reach σ b a :=
    { irrefl := hac
      trans := fun _ _ _ hab hbc => hbc.trans hab }
  by_cases hx : (σ x).isSome
  swap
  · exact h x fun y hy => absurd (isSome_of_reach hy) hx
  have hwf : {x | (σ x).isSome}.WellFoundedOn fun a b => Reach σ b a := hfin.wellFoundedOn
  refine hwf.induction hx fun a _ ih => h a fun b hb => ?_
  by_cases hdom : (σ b).isSome
  · exact ih b hdom hb
  · exact h b fun c hc => absurd (isSome_of_reach hc) hdom

lemma exists_full_of_occurs (h : ∀ x, Occurs x t → ∃ u, Full σ (.sym x) u) : ∃ u, Full σ t u := by
  induction t with
  | leaf l =>
    cases l with
    | sym x => exact h x .sym
    | bvar v => exact ⟨_, .bvar v⟩
    | const c => exact ⟨_, .const c⟩
  | app k cs ih =>
    have hall : ∀ c ∈ cs, ∃ d, Full σ c d := fun c hc => ih c hc fun x hx => h x (.part hc hx)
    obtain ⟨ds, hds⟩ : ∃ ds, Forall₂ (Full σ) cs ds := by
      clear ih h
      induction cs with
      | nil => exact ⟨[], .nil⟩
      | cons c cs ihs =>
        obtain ⟨d, hd⟩ := hall c (.head _)
        obtain ⟨ds, hds⟩ := ihs fun e he => hall e (.tail _ he)
        exact ⟨d :: ds, .cons hd hds⟩
    exact ⟨_, full_app.2 ⟨ds, rfl, hds⟩⟩

lemma Acyclic.exists_full (hac : Acyclic σ) (hfin : FiniteDomain σ) (t : Node) :
    ∃ u, Full σ t u := by
  have hall : ∀ x, ∃ u, Full σ (.sym x) u := by
    refine hac.induction hfin fun x ih => ?_
    cases hx : σ x with
    | none => exact ⟨_, .sym hx⟩
    | some r =>
      obtain ⟨u, hu⟩ := exists_full_of_occurs fun y hy => ih y (.single ⟨r, hx, hy⟩)
      exact ⟨u, .range hx hu⟩
  exact exists_full_of_occurs fun x _ => hall x

lemma Full.occurs (h : Full σ t u) (hy : Occurs y u) : ∃ x, Occurs x t ∧ (x = y ∨ Reach σ x y) := by
  induction h using Full.rec' with
  | range hx _ ih =>
    obtain ⟨z, hz, hzy⟩ := ih hy
    refine ⟨_, .sym, .inr ?_⟩
    rcases hzy with rfl | hzy
    · exact .single ⟨_, hx, hz⟩
    · exact .head ⟨_, hx, hz⟩ hzy
  | sym =>
    cases hy
    exact ⟨_, .sym, .inl rfl⟩
  | bvar | const => cases hy
  | app k _ _ ih =>
    obtain ⟨d, hd, hyd⟩ := occurs_app.1 hy
    obtain ⟨c, hc, _, hcd⟩ := exists_of_forall₂ ih hd
    obtain ⟨z, hz, hzy⟩ := hcd hyd
    exact ⟨z, .part hc hz, hzy⟩

/-! ## More substitutions -/

def Extends (σ σ' : Subst) : Prop := ∀ x t, σ x = some t → σ' x = some t

lemma Extends.reach (h : Extends σ σ') (hxy : Reach σ x y) : Reach σ' x y := by
  have hmono : Uses σ ≤ Uses σ' := by
    rintro a b ⟨t, ht, hb⟩
    exact ⟨t, h a t ht, hb⟩
  exact TransGen.mono hmono x y hxy

/-- Substituting first for some of the symbols makes no difference. -/
lemma Full.trans (hext : Extends σ σ') (h : Full σ t u) (h' : Full σ' u v) : Full σ' t v := by
  induction h using Full.rec' generalizing v with
  | range hx _ ih => exact .range (hext _ _ hx) (ih h')
  | sym | bvar | const => exact h'
  | app k hlen hall ih =>
    obtain ⟨es, rfl, hes⟩ := full_app.1 h'
    refine full_app.2 ⟨es, rfl, ?_⟩
    clear h' hall hlen
    induction ih generalizing es with
    | nil =>
      cases hes
      exact .nil
    | cons hd _ ihs =>
      cases hes with
      | cons he hes =>
        obtain ⟨_, hd⟩ := hd
        exact .cons (hd he) (ihs _ hes)

/-! ## The contents of the map -/

variable {compress : Bool} {μ μ' : NodeMap} {r : Node}

lemma range?_eq_some : range? μ n = some r ↔ μ.lookup n = some r ∧ r ≠ n := by
  unfold range?
  split <;> simp_all
  grind

lemma range?_congr (h : μ'.lookup n = μ.lookup n) : range? μ' n = range? μ n := by
  rw [range?, range?, h]

/-- The map stands for `σ`: a stored range may have been replaced by a term with the same full
substitution, in which only symbols occur that the original range depends on. -/
structure Matches (σ : Subst) (compress : Bool) (μ : NodeMap) : Prop where
  key : ∀ n r, μ.lookup n = some r → ∃ x, n = .sym x
  off : ∀ x, σ x = none → range? μ (.sym x) = none
  on : ∀ x t, σ x = some t → ∃ r u, range? μ (.sym x) = some r ∧ Full σ t u ∧ Full σ r u
  below : ∀ x r, range? μ (.sym x) = some r → ∀ y, Occurs y r → Reach σ x y
  plain : compress = false → ∀ x, range? μ (.sym x) = σ x

lemma Matches.range?_app (h : Matches σ compress μ) : range? μ (.app k cs) = none := by
  cases hr : range? μ (.app k cs) with
  | none => rfl
  | some r =>
    obtain ⟨x, hx⟩ := h.key _ _ (range?_eq_some.1 hr).1
    cases hx

lemma Matches.range?_leaf (h : Matches σ compress μ) {l : Leaf} (hl : ∀ x, l ≠ .sym x) :
    range? μ (.leaf l) = none := by
  cases hr : range? μ (.leaf l) with
  | none => rfl
  | some r =>
    obtain ⟨x, hx⟩ := h.key _ _ (range?_eq_some.1 hr).1
    cases hx
    exact absurd rfl (hl x)

lemma Matches.full_sym (h : Matches σ compress μ) (hr : range? μ (.sym x) = some r) :
    Full σ (.sym x) u ↔ Full σ r u := by
  cases hx : σ x with
  | none => cases (h.off x hx).symm.trans hr
  | some t =>
    obtain ⟨r', u', hr', ht, hru⟩ := h.on x t hx
    cases hr.symm.trans hr'
    rw [full_sym_some hx]
    constructor
    · intro hu
      rw [hu.unique ht]
      exact hru
    intro hu
    rw [hu.unique hru]
    exact ht

/-- Compression keeps the meaning of the map. -/
lemma Matches.insert (h : Matches σ true μ) (hac : Acyclic σ)
    (hr : range? μ (.sym x) = some r) (hv : Full σ r v) :
    Matches σ true (μ.insert (.sym x) v) := by
  have hbelow : ∀ y, Occurs y v → Reach σ x y := by
    intro y hy
    obtain ⟨z, hz, hzy⟩ := hv.occurs hy
    rcases hzy with rfl | hzy
    · exact h.below x r hr _ hz
    · exact (h.below x r hr z hz).trans hzy
  have hne : v ≠ .sym x := by
    rintro rfl
    exact hac x (hbelow x .sym)
  have hself : range? (μ.insert (.sym x) v) (.sym x) = some v :=
    range?_eq_some.2 ⟨lookup_insert μ, hne⟩
  have hother : ∀ y, y ≠ x → range? (μ.insert (.sym x) v) (.sym y) = range? μ (.sym y) := by
    intro y hy
    exact range?_congr (lookup_insert_ne fun heq => hy (by simpa [sym] using heq))
  have hsome : (σ x).isSome := by
    cases hx : σ x with
    | none => cases (h.off x hx).symm.trans hr
    | some t => rfl
  constructor
  · intro n u hn
    by_cases heq : n = .sym x
    · exact ⟨x, heq⟩
    · rw [lookup_insert_ne heq] at hn
      exact h.key n u hn
  · intro y hy
    have hyx : y ≠ x := by
      rintro rfl
      rw [hy] at hsome
      cases hsome
    rw [hother y hyx]
    exact h.off y hy
  · intro y t hy
    by_cases hyx : y = x
    · subst hyx
      have hfull := (full_sym_some hy).1 ((h.full_sym hr).2 hv)
      exact ⟨v, v, hself, hfull, hv.idem⟩
    · rw [hother y hyx]
      exact h.on y t hy
  · intro y t hy z hz
    by_cases hyx : y = x
    · subst hyx
      cases hself.symm.trans hy
      exact hbelow z hz
    · rw [hother y hyx] at hy
      exact h.below y t hy z hz
  · exact nofun

/-! ## Visits -/

/-- What the traversal preserves. -/
structure Good (σ : Subst) (compress : Bool) (s : State) : Prop where
  cache : ∀ t u, s.cache.lookup t = some u → Full σ t u
  map : Matches σ compress s.substitutions

abbrev Steps (compress : Bool) : State → State → Prop :=
  ReflTransGen fun s s' => step compress s = some s'

/-- The state after some iterations: nothing has left the cache, and a range in the map has changed
only where the cache has an entry. -/
structure After (σ : Subst) (compress : Bool) (s s' : State) : Prop where
  steps : Steps compress s s'
  good : Good σ compress s'
  mono : ∀ t, (s.cache.lookup t).isSome → (s'.cache.lookup t).isSome
  frame : ∀ t, s'.cache.lookup t = none → s'.substitutions.lookup t = s.substitutions.lookup t

variable {st st' st'' : State} {rest : List StackElement}

lemma After.refl (h : Good σ compress st) : After σ compress st st :=
  ⟨.refl, h, fun _ => id, fun _ _ => rfl⟩

lemma After.trans (h : After σ compress st st') (h' : After σ compress st' st'') :
    After σ compress st st'' := by
  refine ⟨h.steps.trans h'.steps, h'.good, fun t ht => h'.mono t (h.mono t ht), fun t ht => ?_⟩
  have hnone : st'.cache.lookup t = none := by
    rw [← Option.not_isSome_iff_eq_none]
    intro hsome
    have := h'.mono t hsome
    rw [ht] at this
    cases this
  exact (h'.frame t ht).trans (h.frame t hnone)

lemma After.stack (h : Good σ compress st) {stack : List StackElement}
    (hs : step compress st = some { st with toVisit := stack }) :
    After σ compress st { st with toVisit := stack } :=
  ⟨.single hs, ⟨h.cache, h.map⟩, fun _ => id, fun _ _ => rfl⟩

lemma After.finish (h : Good σ compress st) (hfull : Full σ t u)
    (hs : step compress st = some (finish st rest t u)) :
    After σ compress st (finish st rest t u) := by
  refine ⟨.single hs, ⟨fun n w hn => ?_, h.map⟩, fun n hn => ?_, fun _ _ => rfl⟩
  · by_cases heq : n = t
    · subst heq
      cases (lookup_insert _).symm.trans hn
      exact hfull
    · rw [Substitutions.finish, lookup_insert_ne heq] at hn
      exact h.cache n w hn
  by_cases heq : n = t
  · subst heq
    simp [Substitutions.finish]
  · rw [Substitutions.finish, lookup_insert_ne heq]
    exact hn

/-- With the node on top of the stack, the loop comes to a state with the node in the cache and off
the stack. -/
def Visits (σ : Subst) (compress : Bool) (t : Node) : Prop :=
  ∀ s rest, Good σ compress s → s.toVisit = ⟨t, false⟩ :: rest →
    ∃ s', After σ compress s s' ∧ s'.toVisit = rest ∧ (s'.cache.lookup t).isSome

lemma visits_cached (b : Bool) (h : Good σ compress st) (hst : st.toVisit = ⟨t, b⟩ :: rest)
    (hc : (st.cache.lookup t).isSome) :
    ∃ s', After σ compress st s' ∧ s'.toVisit = rest ∧ (s'.cache.lookup t).isSome := by
  refine ⟨{ st with toVisit := rest }, After.stack h ?_, rfl, hc⟩
  rw [step, hst]
  simp only [hc, if_true]

lemma visits_list (hall : ∀ c ∈ cs, Visits σ compress c) (h : Good σ compress st)
    (hst : st.toVisit = cs.map (fun c => ⟨c, false⟩) ++ rest) :
    ∃ s', After σ compress st s' ∧ s'.toVisit = rest ∧ ∀ c ∈ cs, (s'.cache.lookup c).isSome := by
  induction cs generalizing st with
  | nil => exact ⟨st, .refl h, hst, nofun⟩
  | cons c cs ih =>
    obtain ⟨s1, h1, hrest, hc⟩ := hall c (.head _) st _ h hst
    obtain ⟨s2, h2, hrest', hcs⟩ := ih (fun d hd => hall d (.tail _ hd)) h1.good hrest
    refine ⟨s2, h1.trans h2, hrest', ?_⟩
    rintro d (_ | ⟨_, hd⟩)
    · exact h2.mono c hc
    · exact hcs d hd

lemma mapM_lookup {cache : NodeMap} (hall : ∀ c ∈ cs, (cache.lookup c).isSome) :
    ∃ ds, cs.mapM cache.lookup = some ds ∧ Forall₂ (fun c d => cache.lookup c = some d) cs ds := by
  induction cs with
  | nil => exact ⟨[], rfl, .nil⟩
  | cons c cs ih =>
    obtain ⟨ds, hds, hall'⟩ := ih fun d hd => hall d (.tail _ hd)
    obtain ⟨d, hd⟩ := isSome_iff_exists.1 (hall c (.head _))
    refine ⟨d :: ds, ?_, .cons hd hall'⟩
    rw [List.mapM_cons, hd, hds]
    rfl

lemma visits_processed (h : Good σ compress st) (hst : st.toVisit = ⟨.app k cs, true⟩ :: rest)
    (hall : ∀ c ∈ cs, (st.cache.lookup c).isSome) :
    ∃ s', After σ compress st s' ∧ s'.toVisit = rest ∧ (s'.cache.lookup (.app k cs)).isSome := by
  by_cases hc : (st.cache.lookup (.app k cs)).isSome
  · exact visits_cached true h hst hc
  obtain ⟨ds, hds, hall'⟩ := mapM_lookup hall
  have hfull : Full σ (.app k cs) (.app k ds) :=
    full_app.2 ⟨ds, rfl, hall'.imp fun _ _ hd => h.cache _ _ hd⟩
  have hstep : step compress st = some (processed compress st rest (.app k cs) (.app k ds)) := by
    rw [step, hst]
    simp only [if_neg hc, h.map.range?_app, if_true, hds, map_some]
  have hresult : ∃ u, Full σ (.app k cs) u ∧
      processed compress st rest (.app k cs) (.app k ds) = finish st rest (.app k cs) u := by
    unfold processed
    split
    · exact ⟨_, hfull, rfl⟩
    split
    · rename_i w hw
      exact ⟨w, (h.cache _ _ hw).unique hfull.idem ▸ hfull, rfl⟩
    · rw [h.map.range?_app]
      exact ⟨_, hfull, rfl⟩
  obtain ⟨u, hu, heq⟩ := hresult
  rw [heq] at hstep
  exact ⟨_, .finish h hu hstep, rfl, by simp [finish]⟩

lemma visits_app (hall : ∀ c ∈ cs, Visits σ compress c) : Visits σ compress (.app k cs) := by
  intro s rest h hst
  by_cases hc : (s.cache.lookup (.app k cs)).isSome
  · exact visits_cached false h hst hc
  by_cases hnil : cs = []
  · subst hnil
    have hfull : Full σ (.app k []) (.app k []) := full_app.2 ⟨[], rfl, .nil⟩
    have hstep : step compress s = some (finish s rest (.app k []) (.app k [])) := by
      rw [step, hst]
      simp only [if_neg hc, h.map.range?_app, Bool.false_eq_true, if_false, if_true]
    exact ⟨_, .finish h hfull hstep, rfl, by simp [finish]⟩
  have hstep : step compress s = some { s with
      toVisit := pushParts s.cache cs (⟨.app k cs, true⟩ :: rest) } := by
    rw [step, hst]
    simp only [if_neg hc, h.map.range?_app, Bool.false_eq_true, if_false, if_neg hnil]
  have h₁ := After.stack h hstep
  have hpushed : pushParts s.cache cs (⟨.app k cs, true⟩ :: rest) =
      (cs.filter fun c => (s.cache.lookup c).isNone).reverse.map (fun c => ⟨c, false⟩) ++
        ⟨.app k cs, true⟩ :: rest := by simp [pushParts]
  obtain ⟨s₂, h₂, hrest, hcs⟩ := visits_list
    (fun c hc => hall c (List.mem_of_mem_filter (List.mem_reverse.1 hc))) h₁.good hpushed
  have hparts : ∀ c ∈ cs, (s₂.cache.lookup c).isSome := by
    intro c hc
    by_cases hcached : (s.cache.lookup c).isSome
    · exact (h₁.trans h₂).mono c hcached
    · exact hcs c (by simp [hc, Option.not_isSome_iff_eq_none.1 hcached])
  obtain ⟨s₃, h₃, hrest', hdone⟩ := visits_processed h₂.good hrest hparts
  exact ⟨s₃, (h₁.trans h₂).trans h₃, hrest', hdone⟩

lemma visits_leaf {l : Leaf} (hnone : ∀ s, Good σ compress s → range? s.substitutions (.leaf l) = none)
    (hfull : Full σ (.leaf l) (.leaf l)) : Visits σ compress (.leaf l) := by
  intro s rest h hst
  by_cases hc : (s.cache.lookup (.leaf l)).isSome
  · exact visits_cached false h hst hc
  have hstep : step compress s = some (finish s rest (.leaf l) (.leaf l)) := by
    rw [step, hst]
    simp only [if_neg hc, hnone s h]
  exact ⟨_, .finish h hfull hstep, rfl, by simp [finish]⟩

lemma visits_of_occurs (hall : ∀ x, Occurs x t → Visits σ compress (.sym x)) :
    Visits σ compress t := by
  induction t with
  | leaf l =>
    cases l with
    | sym x => exact hall x .sym
    | bvar v => exact visits_leaf (fun s h => h.map.range?_leaf nofun) (.bvar v)
    | const c => exact visits_leaf (fun s h => h.map.range?_leaf nofun) (.const c)
  | app k cs ih => exact visits_app fun c hc => ih c hc fun x hx => hall x (.part hc hx)

lemma visits_range (hac : Acyclic σ) (h : Good σ compress st)
    (hst : st.toVisit = ⟨.sym x, false⟩ :: rest) (hr : range? st.substitutions (.sym x) = some r)
    (hcached : st.cache.lookup r = some v) :
    ∃ s', After σ compress st s' ∧ s'.toVisit = rest ∧ (s'.cache.lookup (.sym x)).isSome := by
  by_cases hc : (st.cache.lookup (.sym x)).isSome
  · exact visits_cached false h hst hc
  have hv := h.cache r v hcached
  have hstep : step compress st = some
      { toVisit := rest
        cache := st.cache.insert (.sym x) v
        substitutions :=
          if st.tracker = none ∧ compress = true then st.substitutions.insert (.sym x) v
          else st.substitutions
        tracker := st.tracker.map fun ns => ns.insert (.sym x) } := by
    rw [step, hst]
    simp only [if_neg hc, hr, hcached]
  refine ⟨_, ⟨.single hstep, ⟨fun n w hn => ?_, ?_⟩, fun n hn => ?_, fun n hn => ?_⟩, rfl, by simp⟩
  · by_cases heq : n = .sym x
    · subst heq
      cases (lookup_insert _).symm.trans hn
      exact (h.map.full_sym hr).2 hv
    · rw [lookup_insert_ne heq] at hn
      exact h.cache n w hn
  · dsimp only
    split
    · rename_i hcompress
      obtain ⟨-, rfl⟩ := hcompress
      exact h.map.insert hac hr hv
    · exact h.map
  · by_cases heq : n = .sym x
    · subst heq
      simp
    · rw [lookup_insert_ne heq]
      exact hn
  have hne : n ≠ .sym x := by
    rintro rfl
    simp at hn
  dsimp only
  split
  · exact lookup_insert_ne hne
  · rfl

lemma visits_sym (hac : Acyclic σ) (hall : ∀ y, Reach σ x y → Visits σ compress (.sym y)) :
    Visits σ compress (.sym x) := by
  cases hx : σ x with
  | none => exact visits_leaf (fun s h => h.map.off x hx) (.sym hx)
  | some t =>
    intro s rest h hst
    by_cases hc : (s.cache.lookup (.sym x)).isSome
    · exact visits_cached false h hst hc
    obtain ⟨r, u, hr, _, _⟩ := h.map.on x t hx
    cases hcached : s.cache.lookup r with
    | some v => exact visits_range hac h hst hr hcached
    | none =>
      have hstep : step compress s = some { s with toVisit := ⟨r, false⟩ :: s.toVisit } := by
        rw [step, hst]
        simp only [if_neg hc, hr, hcached]
      have h1 := After.stack h hstep
      -- the symbols of the range are below `x` whatever compression made of it
      obtain ⟨s2, h2, hrest, hdone⟩ := visits_of_occurs
        (fun y hy => hall y (h.map.below x r hr y hy)) _ s.toVisit h1.good rfl
      rw [hst] at hrest
      have h12 := h1.trans h2
      by_cases hc' : (s2.cache.lookup (.sym x)).isSome
      · obtain ⟨s3, h3, hend⟩ := visits_cached false h2.good hrest hc'
        exact ⟨s3, h12.trans h3, hend⟩
      have hframe := h12.frame _ (Option.not_isSome_iff_eq_none.1 hc')
      obtain ⟨v, hv⟩ := isSome_iff_exists.1 hdone
      obtain ⟨s3, h3, hend⟩ := visits_range hac h2.good hrest ((range?_congr hframe).trans hr) hv
      exact ⟨s3, h12.trans h3, hend⟩

lemma visits (hac : Acyclic σ) (hfin : FiniteDomain σ) (t : Node) : Visits σ compress t := by
  have hsym : ∀ x, Visits σ compress (.sym x) := hac.induction hfin fun _ ih => visits_sym hac ih
  exact visits_of_occurs fun x _ => hsym x

/-! ## The loop -/

lemma toVisit_ne_nil (h : step compress st = some st') : st.toVisit.isEmpty = false := by
  cases hst : st.toVisit with
  | nil =>
    rw [step, hst] at h
    cases h
  | cons => rfl

lemma loop_of_steps (h : Steps compress st st') (hend : st'.toVisit = []) :
    ∃ fuel0, ∀ fuel, fuel0 ≤ fuel → loop compress fuel st = some st' := by
  induction h using ReflTransGen.head_induction_on with
  | refl =>
    refine ⟨0, fun fuel _ => ?_⟩
    cases fuel <;> simp [loop, hend]
  | head hstep _ ih =>
    obtain ⟨fuel0, hfuel⟩ := ih
    refine ⟨fuel0 + 1, fun fuel hle => ?_⟩
    obtain ⟨fuel, rfl⟩ : ∃ f, fuel = f + 1 := ⟨fuel - 1, by omega⟩
    rw [loop, toVisit_ne_nil hstep, hstep]
    exact hfuel fuel (by omega)

lemma loop_eq_of_steps (h : Steps compress st st') (hend : st'.toVisit = []) {fuel : Nat}
    (hloop : loop compress fuel st = some st'') : st'' = st' := by
  induction h using ReflTransGen.head_induction_on generalizing fuel with
  | refl =>
    cases fuel <;> simp only [loop, hend, List.isEmpty_nil, if_true, Option.some.injEq] at hloop <;>
      exact hloop.symm
  | head hstep _ ih =>
    cases fuel with
    | zero =>
      rw [loop, toVisit_ne_nil hstep] at hloop
      cases hloop
    | succ fuel =>
      rw [loop, toVisit_ne_nil hstep, hstep] at hloop
      exact ih hloop

/-! ## Changes of the map -/

lemma matches_of_range? (hac : Acyclic σ) (hfin : FiniteDomain σ)
    (hkey : ∀ n r, μ.lookup n = some r → ∃ x, n = .sym x)
    (hrange : ∀ x, range? μ (.sym x) = σ x) : Matches σ compress μ where
  key := hkey
  off := fun x hx => (hrange x).trans hx
  on := fun x t hx => by
    obtain ⟨u, hu⟩ := hac.exists_full hfin t
    exact ⟨t, u, (hrange x).trans hx, hu, hu⟩
  below := fun x r hr y hy => .single ⟨r, (hrange x).symm.trans hr, hy⟩
  plain := fun _ => hrange

/-- New substitutions, for symbols without one. -/
lemma Matches.extend (h : Matches σ compress μ) (hext : Extends σ σ') (hac : Acyclic σ')
    (hfin : FiniteDomain σ') (hkey : ∀ n r, μ'.lookup n = some r → ∃ x, n = .sym x)
    (hold : ∀ x, (σ x).isSome → μ'.lookup (.sym x) = μ.lookup (.sym x))
    (hnew : ∀ x, σ x = none → range? μ' (.sym x) = σ' x) : Matches σ' compress μ' := by
  have hsame : ∀ x t, σ x = some t → range? μ' (.sym x) = range? μ (.sym x) :=
    fun x t hx => range?_congr (hold x (by simp [hx]))
  constructor
  · exact hkey
  · intro x hx
    cases hx' : σ x with
    | none => exact (hnew x hx').trans hx
    | some t => cases (hext x t hx').symm.trans hx
  · intro x t hx
    cases hx' : σ x with
    | none =>
      obtain ⟨u, hu⟩ := hac.exists_full hfin t
      exact ⟨t, u, (hnew x hx').trans hx, hu, hu⟩
    | some t' =>
      cases (hext x t' hx').symm.trans hx
      obtain ⟨r, u, hr, ht, hru⟩ := h.on x t hx'
      obtain ⟨v, hv⟩ := hac.exists_full hfin u
      exact ⟨r, v, (hsame x t hx').trans hr, ht.trans hext hv, hru.trans hext hv⟩
  · intro x r hr y hy
    cases hx' : σ x with
    | none => exact .single ⟨r, (hnew x hx').symm.trans hr, hy⟩
    | some t =>
      rw [hsame x t hx'] at hr
      exact hext.reach (h.below x r hr y hy)
  · intro hc x
    cases hx' : σ x with
    | none => exact hnew x hx'
    | some t => rw [hsame x t hx', h.plain hc, hx', hext x t hx']

lemma addEntries_eq_some {entries : List (Node × Node)}
    (h : SubstitutionMap.addEntries μ entries = some μ') :
    (∀ e ∈ entries, μ.lookup e.1 = none) ∧ (∀ n, μ.lookup n ≠ none → μ'.lookup n = μ.lookup n) ∧
      ∀ n, μ.lookup n = none → μ'.lookup n = entries.lookup n := by
  induction entries generalizing μ with
  | nil =>
    cases h
    exact ⟨nofun, fun _ _ => rfl, fun n hn => hn⟩
  | cons e entries ih =>
    obtain ⟨x, t⟩ := e
    rw [SubstitutionMap.addEntries] at h
    split at h
    swap
    · cases h
    rename_i hx
    obtain ⟨hall, hold, hnew⟩ := ih h
    have hne : ∀ n, μ.lookup n ≠ none → n ≠ x := by
      rintro n hn rfl
      exact hn hx
    refine ⟨?_, ?_, ?_⟩
    · rintro e (_ | ⟨_, he⟩)
      · exact hx
      · have := hall e he
        by_cases heq : e.1 = x
        · rw [heq, lookup_insert] at this
          cases this
        · rwa [lookup_insert_ne heq] at this
    · intro n hn
      have hins : (μ.insert x t).lookup n = μ.lookup n := lookup_insert_ne (hne n hn)
      rw [hold n (by rwa [hins]), hins]
    intro n hn
    by_cases heq : n = x
    · subst heq
      rw [hold n (by simp), lookup_insert]
      simp
    · rw [hnew n (by rwa [lookup_insert_ne heq]), List.lookup_cons,
        beq_eq_false_iff_ne.2 heq]

/-! ## Runs -/

def boundVar? : Node → Option Nat
  | .leaf (.bvar v) => some v
  | _ => none

lemma boundVar?_eq_some {w : Nat} : boundVar? n = some w ↔ n = .leaf (.bvar w) := by
  unfold boundVar?
  split <;> simp_all

def binders : Node → List Nat
  | .app .boundVarList vs => vs.filterMap boundVar?
  | _ => []

/-- The variables that a closure binds: those of its first part. -/
def boundVars (parts : List Node) : List Nat := (parts.head?.map binders).getD []

inductive FreeIn (v : Nat) : Node → Prop
  | bvar : FreeIn v (.leaf (.bvar v))
  | app {k : Kind} {cs : List Node} {c : Node} : (∀ s, k ≠ .closure s) → c ∈ cs → FreeIn v c →
      FreeIn v (.app k cs)
  | closure {s : Nat} {cs : List Node} {c : Node} : v ∉ boundVars cs → c ∈ cs → FreeIn v c →
      FreeIn v (.app (.closure s) cs)

def Closed (t : Node) : Prop := ∀ v, ¬FreeIn v t

/-- The substitutions of a run, without those that have been popped or erased. -/
structure Ideal where
  current : Subst
  saved : List Subst

/-- Entries of another map: one that sends a symbol to itself has been erased there. -/
def Subst.addAll (σ : Subst) (entries : List (Nat × Node)) : Subst := fun x =>
  match entries.lookup x with
  | some t => if t = .sym x then none else some t
  | none => σ x

/-- The states of a map and the substitutions that they stand for, over all runs. -/
inductive Reachable (compress : Bool) : SubstitutionMap → Ideal → Prop
  | empty : Reachable compress (.empty compress) ⟨fun _ => none, []⟩
  | add {m m' : SubstitutionMap} {I : Ideal} {x : Nat} {t : Node} : Reachable compress m I →
      I.current x = none → Closed t → Acyclic (Function.update I.current x (some t)) →
      m.addSubstitution (.sym x) t = some m' →
      Reachable compress m' { I with current := Function.update I.current x (some t) }
  | addAll {m m' : SubstitutionMap} {I : Ideal} {entries : List (Nat × Node)} :
      Reachable compress m I → (∀ e ∈ entries, Closed e.2) → Acyclic (I.current.addAll entries) →
      m.addSubstitutions (entries.map fun e => (.sym e.1, e.2)) = some m' →
      Reachable compress m' { I with current := I.current.addAll entries }
  | erase {m m' : SubstitutionMap} {I : Ideal} {x : Nat} : Reachable compress m I →
      m.eraseSubstitution (.sym x) = some m' →
      Reachable compress m' { I with current := Function.update I.current x none }
  | push {m : SubstitutionMap} {I : Ideal} : Reachable compress m I →
      Reachable compress m.push { I with saved := I.current :: I.saved }
  | pop {m m' : SubstitutionMap} {σ : Subst} {σs : List Subst} {I : Ideal} :
      Reachable compress m I → I.saved = σ :: σs → m.pop = some m' → Reachable compress m' ⟨σ, σs⟩
  | apply {m m' : SubstitutionMap} {I : Ideal} {fuel : Nat} {t u : Node}
      {tracker tracker' : Option (List Node)} : Reachable compress m I →
      m.apply fuel t tracker = some (u, tracker', m') → Reachable compress m' I

/-- What holds of the map at every level of the context. -/
structure Level (compress : Bool) (σ : Subst) (μ : NodeMap) : Prop where
  map : Matches σ compress μ
  acyclic : Acyclic σ
  finite : FiniteDomain σ
  closed : ∀ x t, σ x = some t → Closed t

structure Inv (compress : Bool) (m : SubstitutionMap) (I : Ideal) : Prop where
  compress_eq : m.compress = compress
  current : Level compress I.current m.substitutions
  saved : Forall₂ (Level compress) I.saved m.saved
  cache : m.cacheInvalidated = false → ∀ t u, m.cache.lookup t = some u → Full I.current t u

lemma level_empty (compress : Bool) : Level compress (fun _ => none) ∅ where
  map :=
    { key := fun n r h => by simp at h
      off := fun x _ => by simp [range?]
      on := nofun
      below := fun x r h => by simp [range?] at h
      plain := fun _ x => by simp [range?] }
  acyclic := fun x h => by simpa using isSome_of_reach h
  finite := by simp [FiniteDomain]
  closed := nofun

lemma Level.update (h : Level compress σ μ) (hx : σ x = none) (ht : Closed t)
    (hac : Acyclic (Function.update σ x (some t))) :
    Level compress (Function.update σ x (some t)) (μ.insert (.sym x) t) := by
  have hfin : FiniteDomain (Function.update σ x (some t)) := by
    refine (h.finite.insert x).subset fun y hy => ?_
    by_cases hyx : y = x
    · exact .inl hyx
    · exact .inr (by simpa [update_of_ne hyx] using hy)
  have hext : Extends σ (Function.update σ x (some t)) := by
    intro y r hy
    rw [update_of_ne]
    · exact hy
    · rintro rfl
      cases hx.symm.trans hy
  have hne : t ≠ .sym x := by
    rintro rfl
    exact hac x (.single ⟨.sym x, update_self .., .sym⟩)
  have hsym : ∀ y, y ≠ x → sym y ≠ sym x := fun y hy heq => hy (by simpa [sym] using heq)
  refine ⟨h.map.extend hext hac hfin ?_ ?_ ?_, hac, hfin, ?_⟩
  · intro n r hn
    by_cases heq : n = .sym x
    · exact ⟨x, heq⟩
    · rw [lookup_insert_ne heq] at hn
      exact h.map.key n r hn
  · intro y hy
    refine lookup_insert_ne (hsym y ?_)
    rintro rfl
    rw [hx] at hy
    cases hy
  · intro y hy
    by_cases hyx : y = x
    · subst hyx
      rw [update_self]
      exact range?_eq_some.2 ⟨lookup_insert μ, hne⟩
    · rw [update_of_ne hyx, range?_congr (lookup_insert_ne (hsym y hyx)), hy]
      exact h.map.off y hy
  intro y r hy
  by_cases hyx : y = x
  swap
  · rw [update_of_ne hyx] at hy
    exact h.closed y r hy
  subst hyx
  rw [update_self] at hy
  cases hy
  exact ht

variable {entries : List (Nat × Node)}

lemma mem_of_lookup (h : entries.lookup x = some t) : (x, t) ∈ entries := by
  obtain ⟨l1, l2, rfl, -⟩ := List.lookup_eq_some_iff.1 h
  simp

lemma lookup_map_sym (entries : List (Nat × Node)) (x : Nat) :
    (entries.map fun e => (Node.sym e.1, e.2)).lookup (.sym x) = entries.lookup x := by
  induction entries with
  | nil => rfl
  | cons e entries ih =>
    rw [map_cons, List.lookup_cons, List.lookup_cons, ih]
    by_cases hx : x = e.1
    · simp [hx]
    · have hsym : sym x ≠ sym e.1 := fun heq => hx (by simpa [sym] using heq)
      rw [beq_eq_false_iff_ne.2 hx, beq_eq_false_iff_ne.2 hsym]

lemma lookup_map_of_ne (hn : ∀ x, n ≠ .sym x) :
    (entries.map fun e => (Node.sym e.1, e.2)).lookup n = none := by
  rw [List.lookup_eq_none_iff]
  intro e he
  obtain ⟨d, -, rfl⟩ := mem_map.1 he
  exact bne_iff_ne.2 (hn d.1)

lemma Level.addAll (h : Level compress σ μ)
    (ht : ∀ e ∈ entries, Closed e.2) (hac : Acyclic (σ.addAll entries))
    (hadd : SubstitutionMap.addEntries μ (entries.map fun e => (.sym e.1, e.2)) = some μ') :
    Level compress (σ.addAll entries) μ' := by
  obtain ⟨hall, hold, hnew⟩ := addEntries_eq_some hadd
  have hon : ∀ x, (σ x).isSome → μ.lookup (.sym x) ≠ none := by
    intro x hx hnone
    obtain ⟨t, ht⟩ := isSome_iff_exists.1 hx
    obtain ⟨r, u, hr, _⟩ := h.map.on x t ht
    cases hnone.symm.trans (range?_eq_some.1 hr).1
  have hentries : ∀ x, μ.lookup (.sym x) ≠ none → entries.lookup x = none := by
    intro x hx
    rw [List.lookup_eq_none_iff]
    intro e he
    refine bne_iff_ne.2 ?_
    rintro rfl
    exact hx (hall (.sym e.1, e.2) (mem_map.2 ⟨e, he, rfl⟩))
  have hsame : ∀ x, μ.lookup (.sym x) ≠ none → σ.addAll entries x = σ x := by
    intro x hx
    rw [Subst.addAll, hentries x hx]
  have hfin : FiniteDomain (σ.addAll entries) := by
    refine (h.finite.union (entries.map Prod.fst).finite_toSet).subset fun x hx => ?_
    by_cases hmem : entries.lookup x = none
    · refine .inl ?_
      simpa [Subst.addAll, hmem] using hx
    · obtain ⟨t, ht⟩ := Option.ne_none_iff_exists'.1 hmem
      exact .inr (mem_map.2 ⟨(x, t), mem_of_lookup ht, rfl⟩)
  refine ⟨h.map.extend ?_ hac hfin ?_ ?_ ?_, hac, hfin, ?_⟩
  · intro x t hx
    rw [hsame x (hon x (by simp [hx])), hx]
  · intro n r hn
    by_cases hnone : μ.lookup n = none
    · rw [hnew n hnone] at hn
      by_contra hno
      rw [lookup_map_of_ne (not_exists.1 hno)] at hn
      cases hn
    · rw [hold n hnone] at hn
      exact h.map.key n r hn
  · exact fun x hx => hold _ (hon x hx)
  · intro x hx
    by_cases hnone : μ.lookup (.sym x) = none
    · have hlookup := hnew _ hnone
      rw [lookup_map_sym] at hlookup
      cases hl : entries.lookup x <;> simp only [range?, hlookup, Subst.addAll, hx, hl]
    · rw [range?_congr (hold _ hnone), hsame x hnone, hx]
      exact h.map.off x hx
  intro x t hx
  rw [Subst.addAll] at hx
  split at hx
  swap
  · exact h.closed x t hx
  rename_i t' hlookup
  split at hx
  · cases hx
  · cases hx
    exact ht _ (mem_of_lookup hlookup)

lemma Level.erase (h : Level false σ μ) :
    Level false (Function.update σ x none) (μ.insert (.sym x) (.sym x)) := by
  have hsub : Extends (Function.update σ x none) σ := by
    intro y t hy
    by_cases hyx : y = x
    · subst hyx
      rw [update_self] at hy
      cases hy
    · rwa [update_of_ne hyx] at hy
  have hac : Acyclic (Function.update σ x none) := fun y hy => h.acyclic y (hsub.reach hy)
  have hfin : FiniteDomain (Function.update σ x none) := by
    refine h.finite.subset fun y hy => ?_
    obtain ⟨t, ht⟩ := isSome_iff_exists.1 hy
    exact isSome_iff_exists.2 ⟨t, hsub y t ht⟩
  refine ⟨matches_of_range? hac hfin ?_ ?_, hac, hfin, fun y t hy => h.closed y t (hsub y t hy)⟩
  · intro n r hn
    by_cases heq : n = .sym x
    · exact ⟨x, heq⟩
    · rw [lookup_insert_ne heq] at hn
      exact h.map.key n r hn
  intro y
  by_cases hyx : y = x
  · subst hyx
    rw [update_self, range?, lookup_insert]
    simp
  have hsym : sym y ≠ sym x := fun heq => hyx (by simpa [sym] using heq)
  rw [update_of_ne hyx, range?_congr (lookup_insert_ne hsym)]
  exact h.map.plain rfl y

/-! ## `apply` -/

variable {m m' : SubstitutionMap} {I : Ideal} {tracker tracker' : Option (List Node)} {fuel : Nat}

lemma Level.eq_none (h : Level compress σ μ) (hempty : μ.entries.isEmpty = true) (x : Nat) :
    σ x = none := by
  cases hx : σ x with
  | none => rfl
  | some t =>
    obtain ⟨r, u, hr, _⟩ := h.map.on x t hx
    have hlookup := (range?_eq_some.1 hr).1
    rw [AList.lookup, List.isEmpty_iff.1 hempty] at hlookup
    cases hlookup

lemma internalSubstitute_full {cache : NodeMap} (h : Level compress σ μ)
    (hcache : ∀ t u, cache.lookup t = some u → Full σ t u) (t : Node)
    (tracker : Option (List Node)) :
    ∃ u s, (∃ fuel0, ∀ fuel, fuel0 ≤ fuel →
        SubstitutionMap.internalSubstitute fuel compress μ cache t tracker = some (u, s)) ∧
      (∀ fuel p, SubstitutionMap.internalSubstitute fuel compress μ cache t tracker = some p →
        p = (u, s)) ∧
      Full σ t u ∧ Good σ compress s := by
  cases hempty : μ.entries.isEmpty with
  | true =>
    have hnone := h.eq_none hempty
    have heq : ∀ fuel, SubstitutionMap.internalSubstitute fuel compress μ cache t tracker =
        some (t, ⟨[], cache, μ, tracker⟩) := by
      intro fuel
      rw [SubstitutionMap.internalSubstitute, hempty, if_pos rfl]
    refine ⟨t, _, ⟨0, fun fuel _ => heq fuel⟩, fun fuel p hp => ?_, full_self fun x _ => hnone x,
      ⟨hcache, h.map⟩⟩
    exact (some.inj ((heq fuel).symm.trans hp)).symm
  | false =>
    obtain ⟨s, hafter, hend, hdone⟩ := visits h.acyclic h.finite t
      ⟨[⟨t, false⟩], cache, μ, tracker⟩ [] ⟨hcache, h.map⟩ rfl
    obtain ⟨u, hu⟩ := isSome_iff_exists.1 hdone
    obtain ⟨fuel0, hfuel⟩ := loop_of_steps hafter.steps hend
    refine ⟨u, s, ⟨fuel0, fun fuel hle => ?_⟩, fun fuel p hp => ?_, hafter.good.cache t u hu,
      hafter.good⟩
    · rw [SubstitutionMap.internalSubstitute, hempty, if_neg nofun, hfuel fuel hle]
      change (s.cache.lookup t).bind _ = _
      rw [hu]
      rfl
    rw [SubstitutionMap.internalSubstitute, hempty, if_neg nofun] at hp
    obtain ⟨s', hs', hp⟩ := bind_inv hp
    cases loop_eq_of_steps hafter.steps hend hs'
    obtain ⟨u', hu', hp⟩ := bind_inv hp
    cases hu.symm.trans hu'
    exact (some.inj hp).symm

/-- With enough fuel, `apply` returns `u`. -/
def Applies (m : SubstitutionMap) (t : Node) (tracker : Option (List Node)) (u : Node) : Prop :=
  ∃ fuel₀, ∀ fuel, fuel₀ ≤ fuel → ∃ tracker' m', m.apply fuel t tracker = some (u, tracker', m')

lemma Inv.apply (h : Inv compress m I) (t : Node) (tracker : Option (List Node)) :
    ∃ u, Applies m t tracker u ∧ Full I.current t u ∧
      ∀ fuel u' tracker' m', m.apply fuel t tracker = some (u', tracker', m') → Inv compress m' I := by
  have hcache : ∀ t u, (if m.cacheInvalidated then ∅ else m.cache).lookup t = some u →
      Full I.current t u := by
    intro t u htu
    cases hinv : m.cacheInvalidated with
    | true =>
      rw [hinv, if_pos rfl] at htu
      cases htu
    | false =>
      rw [hinv, if_neg nofun] at htu
      exact h.cache hinv t u htu
  obtain ⟨u, s, ⟨fuel0, hfuel⟩, hunique, hfull, hgood⟩ :=
    internalSubstitute_full (h.compress_eq ▸ h.current) hcache t tracker
  refine ⟨u, ⟨fuel0, fun fuel hle => ?_⟩, hfull, fun fuel u' tracker' m' happly => ?_⟩
  · rw [SubstitutionMap.apply, hfuel fuel hle]
    exact ⟨_, _, rfl⟩
  obtain ⟨p, hp, heq⟩ := map_inv happly
  obtain rfl := hunique fuel p hp
  cases heq
  rw [h.compress_eq] at hgood
  exact ⟨h.compress_eq, ⟨hgood.map, h.current.acyclic, h.current.finite, h.current.closed⟩, h.saved,
    fun _ => hgood.cache⟩

lemma Reachable.inv (h : Reachable compress m I) : Inv compress m I := by
  induction h with
  | empty => exact ⟨rfl, level_empty compress, .nil, fun _ t u h => by cases h⟩
  | add _ hx ht hac hadd ih =>
    unfold SubstitutionMap.addSubstitution at hadd
    split at hadd
    · cases hadd
      exact ⟨ih.compress_eq, ih.current.update hx ht hac, ih.saved, nofun⟩
    · cases hadd
  | addAll _ ht hac hadd ih =>
    obtain ⟨μ, hμ, heq⟩ := map_inv hadd
    cases heq
    exact ⟨ih.compress_eq, ih.current.addAll ht hac hμ, ih.saved, nofun⟩
  | erase _ herase ih =>
    unfold SubstitutionMap.eraseSubstitution at herase
    split at herase
    · rename_i hc
      cases herase
      obtain rfl := hc.1.symm.trans ih.compress_eq
      exact ⟨hc.1, ih.current.erase, ih.saved, nofun⟩
    · cases herase
  | push _ ih => exact ⟨ih.compress_eq, ih.current, .cons ih.current ih.saved, ih.cache⟩
  | pop _ hsaved hpop ih =>
    have hall := ih.saved
    rw [hsaved] at hall
    unfold SubstitutionMap.pop at hpop
    split at hpop
    · cases hpop
    rename_i heq
    rw [heq] at hall
    cases hpop
    cases hall with
    | cons hlevel hrest => exact ⟨ih.compress_eq, hlevel, hrest, nofun⟩
  | apply _ happly ih =>
    obtain ⟨_, -, -, hinv⟩ := ih.apply _ _
    exact hinv _ _ _ _ happly

/-! ## Interpretations -/

/-- Interpretations: values of the symbols and meanings of the operators, of which closures take the
value of their body as a function of the values of the variables. -/
structure Interp (D : Type) where
  sym : Nat → D
  const : Nat → D
  app : Kind → List D → D
  bind : Nat → List Nat → (List D → D) → D
  tt : D
  const_zero : const 0 = tt
  equal : ∀ a b, app .equal [a, b] = tt ↔ a = b
  and : ∀ ds, app .and ds = tt ↔ ∀ d ∈ ds, d = tt

namespace Interp

variable {D : Type} (J : Interp D)

/-- The assignment with new values for the given variables. -/
def assign (β : Nat → D) (vs : List Nat) (ds : List D) (v : Nat) : D :=
  if v ∈ vs then ds.getD (vs.idxOf v) J.tt else β v

/-- The value of an application from the values of its parts; other parts of a closure than its
body have no influence on it. -/
def denApp (k : Kind) (parts : List Node) (ds : List ((Nat → D) → D)) (β : Nat → D) : D :=
  match k with
  | .closure s =>
    J.bind s (boundVars parts) fun vals =>
      match ds with
      | _ :: body :: _ => body (J.assign β (boundVars parts) vals)
      | _ => J.tt
  | k => J.app k (ds.map fun d => d β)

mutual

/-- The value of a node under values of the bound variables. -/
def den : Node → (Nat → D) → D
  | .leaf (.sym x) => fun _ => J.sym x
  | .leaf (.bvar v) => fun β => β v
  | .leaf (.const c) => fun _ => J.const c
  | .app k parts => J.denApp k parts (dens parts)

def dens : List Node → List ((Nat → D) → D)
  | [] => []
  | c :: cs => den c :: dens cs

end

def Satisfies (φ : Node) : Prop := ∀ β, J.den φ β = J.tt

end Interp

variable {D : Type} {J : Interp D}

lemma dens_eq_map (cs : List Node) : J.dens cs = cs.map J.den := by
  induction cs with
  | nil => rfl
  | cons c cs ih => rw [Interp.dens, ih, map_cons]

/-- A full substitution leaves bound variables alone. -/
lemma Full.bvar_iff (hclosed : ∀ x t, σ x = some t → Closed t) (h : Full σ t u) {v : Nat} :
    t = .leaf (.bvar v) ↔ u = .leaf (.bvar v) := by
  induction h using Full.rec' with
  | range hx hu ih =>
    constructor
    · nofun
    intro hv
    have hfree := hclosed _ _ hx v
    rw [ih.2 hv] at hfree
    exact absurd .bvar hfree
  | sym => exact Iff.rfl
  | bvar | const => exact Iff.rfl
  | app => exact ⟨nofun, nofun⟩

lemma Full.binders_eq (hclosed : ∀ x t, σ x = some t → Closed t) (h : Full σ t u) :
    binders u = binders t := by
  induction h using Full.rec' with
  | @range x t u hx hu ih =>
    rw [ih]
    change binders t = []
    cases t with
    | leaf l => rfl
    | app k cs =>
      cases k with
      | boundVarList =>
        rw [List.eq_nil_iff_forall_not_mem]
        intro v hv
        obtain ⟨c, hc, hcv⟩ := List.mem_filterMap.1 hv
        rw [boundVar?_eq_some.1 hcv] at hc
        exact hclosed _ _ hx v (.app nofun hc .bvar)
      | equal | and | closure | other => rfl
  | sym | bvar | const => rfl
  | app k hlen hall ih =>
    cases k with
    | boundVarList =>
      clear hlen hall
      induction ih with
      | nil => rfl
      | @cons c d cs ds hcd _ ihs =>
        obtain ⟨hcd, _⟩ := hcd
        have hhead : boundVar? d = boundVar? c := by
          refine Option.ext fun w => ?_
          rw [boundVar?_eq_some, boundVar?_eq_some]
          exact (hcd.bvar_iff hclosed).symm
        simp only [binders] at ihs ⊢
        rw [List.filterMap_cons, List.filterMap_cons, hhead, ihs]
    | equal | and | closure | other => rfl

lemma boundVars_eq (hclosed : ∀ x t, σ x = some t → Closed t) (h : Forall₂ (Full σ) cs ds) :
    boundVars ds = boundVars cs := by
  cases h with
  | nil => rfl
  | cons hcd _ =>
    simp only [boundVars, List.head?_cons, map_some, Option.getD_some]
    exact hcd.binders_eq hclosed

/-- A node has the value of its full substitution if the symbols in it do. -/
lemma den_of_occurs (hclosed : ∀ x t, σ x = some t → Closed t)
    (hall : ∀ x, Occurs x t → ∀ u, Full σ (.sym x) u → J.den (.sym x) = J.den u)
    (h : Full σ t u) : J.den t = J.den u := by
  induction t generalizing u with
  | leaf l =>
    cases l with
    | sym x => exact hall x .sym u h
    | bvar | const =>
      cases h
      rfl
  | app k cs ih =>
    obtain ⟨ds, rfl, hds⟩ := full_app.1 h
    have hmap : cs.map J.den = ds.map J.den := by
      have hparts : ∀ c ∈ cs, ∀ d, Full σ c d → J.den c = J.den d :=
        fun c hc d hd => ih c hc (fun x hx => hall x (.part hc hx)) hd
      clear ih hall h
      induction hds with
      | nil => rfl
      | cons hcd _ ihs =>
        rw [map_cons, map_cons, hparts _ mem_cons_self _ hcd, ihs fun c hc => hparts c (.tail _ hc)]
    have hbound := boundVars_eq hclosed hds
    funext β
    rw [Interp.den, Interp.den, dens_eq_map, dens_eq_map, hmap]
    cases k with
    | closure s => rw [Interp.denApp, Interp.denApp, hbound]
    | equal | and | boundVarList | other => rfl

lemma Interp.Satisfies.lookup (h : J.Satisfies m.toFormula) (hr : m.substitutions.lookup n = some r)
    (β : Nat → D) : J.den n β = J.den r β := by
  have hmem : Node.app .equal [n, r] ∈
      m.substitutions.entries.map fun sub => Node.app .equal [sub.1, sub.2] :=
    mem_map.2 ⟨⟨n, r⟩, AList.mem_lookup_iff.1 hr, rfl⟩
  have hconj : J.den (.app .equal [n, r]) β = J.tt := by
    have hβ := h β
    unfold SubstitutionMap.toFormula at hβ
    split at hβ
    · rename_i hnil
      rw [hnil] at hmem
      cases hmem
    · rename_i conj hone
      rw [hone, List.mem_singleton] at hmem
      rw [hmem]
      exact hβ
    change J.app .and ((J.dens _).map fun d => d β) = J.tt at hβ
    rw [J.and, dens_eq_map] at hβ
    exact hβ _ (mem_map.2 ⟨_, mem_map.2 ⟨_, hmem, rfl⟩, rfl⟩)
  exact (J.equal _ _).1 hconj

lemma den_full (hlevel : Level compress σ m.substitutions) (h : J.Satisfies m.toFormula)
    (hfull : Full σ t u) : J.den t = J.den u := by
  have hsym : ∀ x u, Full σ (.sym x) u → J.den (.sym x) = J.den u := by
    refine hlevel.acyclic.induction hlevel.finite fun x ih u hu => ?_
    cases hx : σ x with
    | none => rw [(full_sym_none hx).1 hu]
    | some t =>
      obtain ⟨r, w, hr, _⟩ := hlevel.map.on x t hx
      have heq : J.den (.sym x) = J.den r := funext (h.lookup (range?_eq_some.1 hr).1)
      rw [heq]
      exact den_of_occurs hlevel.closed (fun y hy => ih y (hlevel.map.below x r hr y hy))
        ((hlevel.map.full_sym hr).1 hu)
  exact den_of_occurs hlevel.closed (fun x _ => hsym x) hfull

/-- In every run, `apply` terminates and returns the node with every symbol of the current
substitutions replaced, also in the ranges.  No such symbol is left, another `apply` changes nothing,
every map with the same substitutions returns the same node, and the node keeps its value in every
interpretation that satisfies `toFormula`. -/
theorem apply_full (h : Reachable compress m I) (t : Node) (tracker : Option (List Node)) :
    ∃ u, Applies m t tracker u ∧ Full I.current t u ∧ (∀ x, (I.current x).isSome → ¬Occurs x u) ∧
      (∀ compress' m' I' tracker', Reachable compress' m' I' → I'.current = I.current →
        Applies m' t tracker' u ∧ Applies m' u tracker' u) ∧
      ∀ (D : Type) (J : Interp D), J.Satisfies m.toFormula → ∀ β, J.den t β = J.den u β := by
  obtain ⟨u, happlies, hfull, _⟩ := h.inv.apply t tracker
  refine ⟨u, happlies, hfull, ?_, ?_, ?_⟩
  · intro x hx hoccurs
    rw [hfull.clean hoccurs] at hx
    cases hx
  · intro compress' m' I' tracker' h' heq
    obtain ⟨u₁, h₁, hfull₁, _⟩ := h'.inv.apply t tracker'
    obtain ⟨u₂, h₂, hfull₂, _⟩ := h'.inv.apply u tracker'
    rw [heq] at hfull₁ hfull₂
    have hu₁ : u₁ = u := hfull₁.unique hfull
    have hu₂ : u₂ = u := hfull₂.unique hfull.idem
    exact ⟨hu₁ ▸ h₁, hu₂ ▸ h₂⟩
  · intro D J hJ β
    exact congrFun (den_full h.inv.current hJ hfull) β

/-- A symbol that is replaced by a constant, in the position of an operator. -/
theorem apply_full_const :
    ∃ m u, (SubstitutionMap.empty true).addSubstitution (.sym 0) (.leaf (.const 1)) = some m ∧
      Applies m (.app (.other 0) [.sym 0, .sym 1]) none u ∧ ¬Occurs 0 u := by
  have hac : Acyclic (Function.update (fun _ => none) 0 (some (.leaf (.const 1)))) := by
    intro x hx
    obtain ⟨y, ⟨t, ht, hy⟩, _⟩ := TransGen.head'_iff.1 hx
    by_cases hx0 : x = 0
    · subst hx0
      rw [update_self] at ht
      cases ht
      cases hy
    · rw [update_of_ne hx0] at ht
      cases ht
  have hreach := Reachable.add (m := .empty true) (x := 0) (t := .leaf (.const 1)) .empty rfl nofun hac
    rfl
  obtain ⟨u, happlies, _, hclean, _⟩ := apply_full hreach (.app (.other 0) [.sym 0, .sym 1]) none
  exact ⟨_, u, rfl, happlies, hclean 0 (by simp)⟩

end EthosCpc.Cvc5.Substitutions
