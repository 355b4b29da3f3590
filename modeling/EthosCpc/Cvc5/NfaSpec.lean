import EthosCpc.Cvc5.RegExpEval
import EthosCpc.Library.Fragments

/-!
# The automata of cvc5 accept the language

The states that `constructInternal` allocates form a fragment that reads the
language of the expression from the state it returns to the dangling arrows of
that state, and no other state changes.  From this, `construct` is right for
the accepting state, and `evaluate` follows the paths.
-/

namespace EthosCpc.Cvc5

open Library
open List (mem_append mem_singleton)
open Function (update_of_ne update_self)

/-! ## Languages -/

mutual

/-- The language of a regular expression. -/
def Regex.lang : Regex → RegLan
  | .toRe w => ({w} : RegLan)
  | .concat r₁ r₂ rs => r₁.lang * (r₂.lang * Regex.langConcat rs)
  | .union rs => Regex.langUnion rs
  | .inter rs => Regex.langInter rs
  | .star r => KStar.kstar r.lang
  | .comp r => r.langᶜ
  | .none => 0
  | .allchar => reAllchar
  | .range a b => reRange [a] [b]

def Regex.langConcat : List Regex → RegLan
  | [] => 1
  | r :: rs => r.lang * Regex.langConcat rs

def Regex.langUnion : List Regex → RegLan
  | [] => 0
  | r :: rs => r.lang + Regex.langUnion rs

def Regex.langInter : List Regex → RegLan
  | [] => (⊤ : Set Str)
  | r :: rs => (r.lang ∩ Regex.langInter rs : Set Str)

end

/-! ## Edges and dangling arrows -/

/-- The words that an annotation reads. -/
def readsEdge : Option NfaEdge → Str → Prop
  | none, u => u = []
  | some e, u => ∃ c, u = [c] ∧ e.accepts c = true

namespace NfaCache

variable (h : NfaCache) {p q x : Nat}

/-- The edges of the automaton. -/
def Edge (p : Nat) (u : Str) (q : Nat) : Prop :=
  ∃ e, (e, q) ∈ (h.state p).children ∧ readsEdge e u

def Loose (s : Nat) (p : Nat) (u : Str) : Prop :=
  ∃ e, (p, e) ∈ (h.state s).arrows ∧ readsEdge e u

@[simp] lemma size_addChild (e : Option NfaEdge) : (h.addChild p e q).size = h.size := rfl

@[simp] lemma size_setArrows (arrows : List (Nat × Option NfaEdge)) :
    (h.setArrows p arrows).size = h.size := rfl

@[simp] lemma arrows_addChild (e : Option NfaEdge) :
    ((h.addChild p e q).state x).arrows = (h.state x).arrows := by
  by_cases hx : x = p
  · subst hx
    simp [addChild]
  · simp [addChild, hx]

@[simp] lemma children_setArrows (arrows : List (Nat × Option NfaEdge)) :
    ((h.setArrows p arrows).state x).children = (h.state x).children := by
  by_cases hx : x = p
  · subst hx
    simp [setArrows]
  · simp [setArrows, hx]

lemma children_addChild (e : Option NfaEdge) : ((h.addChild p e q).state x).children =
      (h.state x).children ++ (if x = p then [(e, q)] else []) := by
  by_cases hx : x = p
  · subst hx
    simp [addChild]
  · simp [addChild, hx]

lemma arrows_setArrows (arrows : List (Nat × Option NfaEdge)) :
    ((h.setArrows p arrows).state x).arrows = if x = p then arrows else (h.state x).arrows := by
  by_cases hx : x = p
  · subst hx
    simp [setArrows]
  · simp [setArrows, hx]

variable {y : Nat} {u : Str}

@[simp] lemma edge_setArrows (arrows : List (Nat × Option NfaEdge)) :
    (h.setArrows p arrows).Edge x u y ↔ h.Edge x u y := by
  simp [Edge]

lemma edge_addChild (e : Option NfaEdge) :
    (h.addChild p e q).Edge x u y ↔ h.Edge x u y ∨ (x = p ∧ y = q ∧ readsEdge e u) := by
  unfold Edge
  rw [children_addChild]
  by_cases hx : x = p
  swap
  · simp [hx]
  subst hx
  simp only [if_true, mem_append, mem_singleton, Prod.mk.injEq, true_and]
  constructor
  · rintro ⟨e', hmem | ⟨rfl, rfl⟩, hreads⟩
    · exact .inl ⟨e', hmem, hreads⟩
    · exact .inr ⟨rfl, hreads⟩
  rintro (⟨e', hmem, hreads⟩ | ⟨rfl, hreads⟩)
  · exact ⟨e', .inl hmem, hreads⟩
  · exact ⟨e, .inr ⟨rfl, rfl⟩, hreads⟩

/-! ### Connecting -/

@[simp] lemma size_connectArrows (arrows : List (Nat × Option NfaEdge)) :
    (connectArrows q h arrows).size = h.size := by
  induction arrows generalizing h with
  | nil => rfl
  | cons a arrows ih => exact (ih _).trans (h.size_addChild a.2)

@[simp] lemma arrows_connectArrows (arrows : List (Nat × Option NfaEdge)) :
    ((connectArrows q h arrows).state x).arrows = (h.state x).arrows := by
  induction arrows generalizing h with
  | nil => rfl
  | cons a arrows ih => exact (ih _).trans (h.arrows_addChild a.2)

lemma edge_connectArrows (arrows : List (Nat × Option NfaEdge)) :
    (connectArrows q h arrows).Edge x u y ↔
      h.Edge x u y ∨ ((∃ e, (x, e) ∈ arrows ∧ readsEdge e u) ∧ y = q) := by
  induction arrows generalizing h with
  | nil => simp [connectArrows]
  | cons a arrows ih =>
    obtain ⟨p, e⟩ := a
    rw [connectArrows, ih, edge_addChild]
    constructor
    · rintro ((hedge | ⟨rfl, rfl, hreads⟩) | ⟨⟨e', hmem, hreads⟩, rfl⟩)
      · exact .inl hedge
      · exact .inr ⟨⟨e, .head _, hreads⟩, rfl⟩
      · exact .inr ⟨⟨e', .tail _ hmem, hreads⟩, rfl⟩
    rintro (hedge | ⟨⟨e', hmem, hreads⟩, rfl⟩)
    · exact .inl (.inl hedge)
    rcases List.mem_cons.1 hmem with heq | hmem
    · injection heq with h1 h2
      subst h1 h2
      exact .inl (.inr ⟨rfl, rfl, hreads⟩)
    · exact .inr ⟨⟨e', hmem, hreads⟩, rfl⟩

@[simp] lemma size_connectTo : (h.connectTo p q).size = h.size := by simp [connectTo]

lemma arrows_connectTo :
    ((h.connectTo p q).state x).arrows = if x = p then [] else (h.state x).arrows := by
  rw [connectTo, arrows_setArrows, arrows_connectArrows]

lemma edge_connectTo : (h.connectTo p q).Edge x u y ↔ h.Edge x u y ∨ (h.Loose p x u ∧ y = q) := by
  rw [connectTo, edge_setArrows, edge_connectArrows]
  rfl

lemma state_addChild_of_ne (e : Option NfaEdge) (hx : x ≠ p) :
    (h.addChild p e q).state x = h.state x := update_of_ne hx _ _

lemma state_setArrows_of_ne (arrows : List (Nat × Option NfaEdge)) (hx : x ≠ p) :
    (h.setArrows p arrows).state x = h.state x := update_of_ne hx _ _

lemma state_connectTo_of_ne (hx : x ≠ p) (harrows : ∀ a ∈ (h.state p).arrows, x ≠ a.1) :
    (h.connectTo p q).state x = h.state x := by
  have hloop : ∀ (arrows : List (Nat × Option NfaEdge)) (h : NfaCache),
      (∀ a ∈ arrows, x ≠ a.1) → (connectArrows q h arrows).state x = h.state x := by
    intro arrows
    induction arrows with
    | nil => exact fun _ _ => rfl
    | cons a arrows ih =>
      intro h hne
      exact (ih _ fun b hb => hne b (List.mem_cons_of_mem a hb)).trans
        (h.state_addChild_of_ne a.2 (hne a (.head _)))
  rw [connectTo, state_setArrows_of_ne _ _ hx]
  exact hloop _ h harrows

lemma loose_congr {h' : NfaCache} (harrows : (h'.state p).arrows = (h.state q).arrows) :
    h'.Loose p = h.Loose q := by
  unfold Loose
  rw [harrows]

end NfaCache

/-! ## Construction -/

open NfaCache

/-- The states from one size of the cache to another. -/
def statesFrom (m n : Nat) : Set Nat := { p | m ≤ p ∧ p < n }

/-- The cache has grown by a fragment for the language; the states before it are as they were. -/
structure Built (h h' : NfaCache) (start curr : Nat) (L : RegLan) : Prop where
  frame : ∀ p < h.size, h'.state p = h.state p
  curr_mem : curr ∈ statesFrom h.size h'.size
  sources : ∀ a ∈ (h'.state curr).arrows, a.1 ∈ statesFrom h.size h'.size
  fragment : Fragment h'.Edge (statesFrom h.size h'.size) start (h'.Loose curr) L

variable {curr start s : Nat}

lemma Built.size_lt {h h' : NfaCache} {L : RegLan}
    (hb : Built h h' start curr L) : h.size < h'.size := hb.curr_mem.1.trans_lt hb.curr_mem.2

lemma edge_of_state_eq {h h' : NfaCache} {p : Nat} (heq : h'.state p = h.state p) {u : Str}
    {q : Nat} : h'.Edge p u q ↔ h.Edge p u q := by
  unfold NfaCache.Edge
  rw [heq]

lemma statesFrom_union {l m n : Nat} (hlm : l ≤ m) (hmn : m ≤ n) :
    statesFrom l m ∪ statesFrom m n = statesFrom l n := by
  ext p
  simp only [statesFrom, Set.mem_union, Set.mem_ofPred_eq]
  omega

lemma statesFrom_disjoint (l m n : Nat) : Disjoint (statesFrom l m) (statesFrom m n) := by
  refine Set.disjoint_left.2 fun p h1 h2 => ?_
  have h3 := h1.2
  have h4 := h2.1
  omega

lemma statesFrom_succ (n : Nat) : statesFrom n (n + 1) = {n} := by
  ext p
  simp only [statesFrom, Set.mem_ofPred_eq, Set.mem_singleton_iff]
  omega

lemma statesFrom_insert {m n : Nat} (hmn : m < n) :
    insert m (statesFrom (m + 1) n) = statesFrom m n := by
  ext p
  simp only [statesFrom, Set.mem_insert_iff, Set.mem_ofPred_eq]
  omega

lemma statesFrom_mono {l m n : Nat} (hlm : l ≤ m) {p : Nat} (hp : p ∈ statesFrom m n) :
    p ∈ statesFrom l n := ⟨hlm.trans hp.1, hp.2⟩

variable {L L' : RegLan}

lemma Built.weaken {h h' h'' : NfaCache} {start' curr' : Nat}
    (hb : Built h h' start curr L) (hb' : Built h' h'' start' curr' L') :
    Fragment h''.Edge (statesFrom h.size h'.size) start (h''.Loose curr) L := by
  rw [h'.loose_congr (congrArg NfaState.arrows (hb'.frame curr hb.curr_mem.2))]
  exact hb.fragment.congr fun p u q hp => edge_of_state_eq (hb'.frame p hp.2)

/-! ### Concatenation -/

lemma Built.connect {h h' h'' : NfaCache} {rcs : Nat}
    (hb : Built h h' start curr L) (hb' : Built h' h'' rcs rcs L') :
    Built h (h''.connectTo curr rcs) start rcs (L * L') := by
  have hw := hb.weaken hb'
  have hle := hb.size_lt.le
  have hne : rcs ≠ curr := fun heq => by
    have h1 := hb'.curr_mem.1
    have h2 := hb.curr_mem.2
    omega
  have harrows : ((h''.connectTo curr rcs).state rcs).arrows = (h''.state rcs).arrows :=
    h''.arrows_connectTo.trans (if_neg hne)
  refine ⟨fun p hp => ?_, ?_, fun a ha => ?_, ?_⟩
  · have hp' := hp.trans hb.size_lt
    rw [h''.state_connectTo_of_ne, hb'.frame p hp', hb.frame p hp]
    · exact fun heq => absurd hb.curr_mem.1 (by omega)
    rw [hb'.frame curr hb.curr_mem.2]
    intro a ha heq
    exact absurd (hb.sources a ha).1 (by omega)
  · rw [size_connectTo]
    exact statesFrom_mono hle hb'.curr_mem
  · rw [harrows] at ha
    rw [size_connectTo]
    exact statesFrom_mono hle (hb'.sources a ha)
  rw [size_connectTo, ← statesFrom_union hle hb'.size_lt.le, h''.loose_congr harrows]
  refine hw.concat hb'.fragment (statesFrom_disjoint _ _ _) (fun p u q _ =>
    h''.edge_connectTo) fun p u q hp => ?_
  rw [h''.edge_connectTo]
  refine or_iff_left fun hloose => ?_
  exact Set.disjoint_left.1 (statesFrom_disjoint h.size h'.size h''.size) (hw.loose p u hloose.1) hp

lemma Built.finish {h h' : NfaCache} {L : RegLan}
    (hb : Built h h' start curr L) (hne : start ≠ curr) :
    Built h ((h'.setArrows start (h'.state curr).arrows).setArrows curr []) start start L := by
  have hstart := hb.fragment.start_mem
  have harrows : (((h'.setArrows start (h'.state curr).arrows).setArrows curr []).state
      start).arrows = (h'.state curr).arrows := by
    rw [arrows_setArrows, if_neg hne, arrows_setArrows, if_pos rfl]
  refine ⟨fun p hp => ?_, hstart, fun a ha => ?_, ?_⟩
  · rw [state_setArrows_of_ne, state_setArrows_of_ne, hb.frame p hp]
    · exact fun heq => absurd hstart.1 (by omega)
    · exact fun heq => absurd hb.curr_mem.1 (by omega)
  · rw [harrows] at ha
    exact hb.sources a ha
  · rw [h'.loose_congr harrows]
    exact hb.fragment.congr fun p u q _ => by simp

/-! ### Single states -/

lemma built_single (h : NfaCache) (e : Option NfaEdge) :
    Built h (h.allocateState.2.setArrows h.size [(h.size, e)]) h.size h.size
      { u | readsEdge e u } := by
  have hstate : h.allocateState.2.state h.size = ⟨[], []⟩ := update_self _ _ _
  have harrows : ((h.allocateState.2.setArrows h.size [(h.size, e)]).state h.size).arrows =
      [(h.size, e)] := by rw [arrows_setArrows, if_pos rfl]
  have hmem : h.size ∈ statesFrom h.size (h.size + 1) := ⟨le_rfl, Nat.lt_succ_self _⟩
  refine ⟨fun p hp => ?_, hmem, fun a ha => ?_, ?_⟩
  · rw [state_setArrows_of_ne _ _ (by omega)]
    exact update_of_ne (by omega) _ _
  · rw [harrows, mem_singleton] at ha
    rw [ha]
    exact hmem
  change Fragment _ (statesFrom h.size (h.size + 1)) _ _ _
  rw [statesFrom_succ]
  refine Fragment.single (fun u q => ?_) fun p u => ?_
  · rw [edge_setArrows]
    rintro ⟨e', hmem, _⟩
    rw [hstate] at hmem
    cases hmem
  unfold NfaCache.Loose
  rw [harrows]
  constructor
  · rintro ⟨e', hmem, hreads⟩
    injection mem_singleton.1 hmem with h1 h2
    subst h2
    exact ⟨h1, hreads⟩
  · rintro ⟨rfl, hreads⟩
    exact ⟨e, List.mem_singleton_self _, hreads⟩

/-! ### Constants -/

/-- The chain of states that reads a prefix of a constant. -/
structure Chain (h h' : NfaCache) (s curr : Nat) (pre : Str) : Prop where
  frame : ∀ p < h.size, h'.state p = h.state p
  start_mem : s ∈ statesFrom h.size h'.size
  curr_mem : curr ∈ statesFrom h.size h'.size
  arrows_nil : (h'.state s).arrows = []
  fragment : Fragment h'.Edge (statesFrom h.size h'.size) s (fun p u => p = curr ∧ u = [])
    ({pre} : RegLan)

lemma chain_init (h : NfaCache) : Chain h h.allocateState.2 h.size h.size [] := by
  have hstate : h.allocateState.2.state h.size = ⟨[], []⟩ := update_self _ _ _
  have hmem : h.size ∈ statesFrom h.size (h.size + 1) := ⟨le_rfl, Nat.lt_succ_self _⟩
  refine ⟨fun p hp => update_of_ne (by omega) _ _, hmem, hmem, by rw [hstate], ?_⟩
  change Fragment _ (statesFrom h.size (h.size + 1)) _ _ _
  rw [statesFrom_succ]
  refine Fragment.single (fun u q => ?_) fun p u => Iff.rfl
  rintro ⟨e', hmem, _⟩
  rw [hstate] at hmem
  cases hmem

lemma singleton_mul_singleton (u v : Str) : ({u} : RegLan) * ({v} : RegLan) = ({u ++ v} : RegLan) :=
  Set.image2_singleton

lemma readsEdge_char (c : CodePoint) (u : Str) : readsEdge (some (.char c)) u ↔ u = [c] := by
  constructor
  · rintro ⟨d, rfl, hd⟩
    rw [of_decide_eq_true hd]
  · rintro rfl
    exact ⟨c, rfl, decide_eq_true rfl⟩

lemma Chain.step {h h' : NfaCache} {pre : Str} (hc : Chain h h' s curr pre) (c : CodePoint) :
    Chain h (h'.allocateState.2.addChild curr (some (.char c)) h'.size) s h'.size (pre ++ [c]) := by
  have hlt := hc.curr_mem.2
  have hle : h.size ≤ h'.size := hc.curr_mem.1.trans hlt.le
  have hstate : h'.allocateState.2.state h'.size = ⟨[], []⟩ := update_self _ _ _
  have hold : ∀ p < h'.size, h'.allocateState.2.state p = h'.state p := fun p hp =>
    update_of_ne (by omega) _ _
  have hpre : Fragment h'.allocateState.2.Edge (statesFrom h.size h'.size) s
      (fun p u => p = curr ∧ u = []) ({pre} : RegLan) :=
    hc.fragment.congr fun p u q hp => edge_of_state_eq (hold p hp.2)
  have hlast : Fragment h'.allocateState.2.Edge {h'.size} h'.size
      (fun p u => p = h'.size ∧ u = []) (1 : RegLan) := by
    refine Fragment.single (fun u q => ?_) fun p u => Iff.rfl
    rintro ⟨e', hmem, _⟩
    rw [hstate] at hmem
    cases hmem
  have hadd : ∀ p u q, (h'.allocateState.2.addChild curr (some (.char c)) h'.size).Edge p u q ↔
      h'.allocateState.2.Edge p u q ∨ (p = curr ∧ u = [c]) ∧ q = h'.size := by
    intro p u q
    rw [edge_addChild, readsEdge_char, and_comm (a := q = h'.size), and_assoc]
  refine ⟨fun p hp => ?_, ⟨hc.start_mem.1, Nat.lt_succ_of_lt hc.start_mem.2⟩,
    ⟨hle, Nat.lt_succ_self _⟩, ?_, ?_⟩
  · rw [state_addChild_of_ne _ _ (by have := hc.curr_mem.1; omega), hold p (by omega),
      hc.frame p hp]
  · rw [arrows_addChild, hold s hc.start_mem.2]
    exact hc.arrows_nil
  change Fragment _ (statesFrom h.size (h'.size + 1)) _ _ _
  rw [← mul_one ({pre ++ [c]} : RegLan), ← singleton_mul_singleton,
    ← statesFrom_union hle (Nat.le_succ _), statesFrom_succ]
  refine (hpre.extend ({[c]} : RegLan)).concat hlast ?_ (fun p u q _ => hadd p u q)
    fun p u q hp => ?_
  · rw [← statesFrom_succ]
    exact statesFrom_disjoint _ _ _
  rw [hadd]
  refine or_iff_left fun hedge => ?_
  rw [Set.mem_singleton_iff] at hp
  omega

lemma built_constructString {h h' : NfaCache} {pre : Str}
    (hc : Chain h h' s curr pre) (c : CodePoint) (cs : Str) :
    Built h (constructString s (c :: cs) curr h') s s ({pre ++ c :: cs} : RegLan) := by
  induction cs generalizing h' curr pre c with
  | nil =>
    have harrows : ((h'.setArrows s ((h'.state s).arrows ++ [(curr, some (.char c))])).state
        s).arrows = [(curr, some (.char c))] := by
      rw [arrows_setArrows, if_pos rfl, hc.arrows_nil, List.nil_append]
    refine ⟨fun p hp => ?_, hc.start_mem, fun a ha => ?_, ?_⟩
    · exact (h'.state_setArrows_of_ne _ (by have := hc.start_mem.1; omega)).trans
        (hc.frame p hp)
    · rw [constructString, harrows, mem_singleton] at ha
      rw [ha]
      exact hc.curr_mem
    have hloose : (constructString s [c] curr h').Loose s =
        fun p u => p = curr ∧ u ∈ ({[c]} : RegLan) := by
      funext p u
      unfold NfaCache.Loose
      rw [constructString, harrows]
      refine propext ⟨?_, ?_⟩
      · rintro ⟨e', hmem, hreads⟩
        injection mem_singleton.1 hmem with h1 h2
        subst h2
        exact ⟨h1, (readsEdge_char c u).1 hreads⟩
      · rintro ⟨rfl, hu⟩
        exact ⟨_, List.mem_singleton_self _, (readsEdge_char c u).2 hu⟩
    rw [hloose, ← singleton_mul_singleton]
    exact (hc.fragment.congr fun p u q _ => by rw [constructString, edge_setArrows]).extend _
  | cons d cs ih =>
    have hrec := ih (hc.step c) d
    rw [List.append_assoc] at hrec
    exact hrec

/-! ### Unions -/

/-- The state of a union, with the children so far beside each other. -/
structure UnionBuilt (h h' : NfaCache) (s : Nat) (L : RegLan) : Prop extends
    Built h h' s s L where
  not_entered : ∀ p u, p ∈ statesFrom h.size h'.size → ¬ h'.Edge p u s

lemma unionBuilt_init (h : NfaCache) : UnionBuilt h h.allocateState.2 h.size 0 := by
  have hstate : h.allocateState.2.state h.size = ⟨[], []⟩ := update_self _ _ _
  have hedge : ∀ u q, ¬ h.allocateState.2.Edge h.size u q := by
    rintro u q ⟨e, hmem, _⟩
    rw [hstate] at hmem
    cases hmem
  have hmem : h.size ∈ statesFrom h.size (h.size + 1) := ⟨le_rfl, Nat.lt_succ_self _⟩
  refine ⟨⟨fun p hp => update_of_ne (by omega) _ _, hmem, fun a ha => ?_, ?_⟩,
    fun p u hp hpq => ?_⟩
  · rw [hstate] at ha
    cases ha
  · change Fragment _ (statesFrom h.size (h.size + 1)) _ _ _
    rw [statesFrom_succ]
    refine Fragment.single hedge fun p u => iff_of_false ?_ fun hu => hu.2
    rintro ⟨e, hmem, _⟩
    rw [hstate] at hmem
    cases hmem
  change p ∈ statesFrom h.size (h.size + 1) at hp
  rw [statesFrom_succ, Set.mem_singleton_iff] at hp
  subst hp
  exact hedge u _ hpq

lemma UnionBuilt.step {h h' h'' : NfaCache} {rcs : Nat}
    (hb : UnionBuilt h h' s L) (hb' : Built h' h'' rcs rcs L') :
    let h₁ := h''.addChild s none rcs
    UnionBuilt h ((h₁.setArrows s ((h₁.state s).arrows ++ (h₁.state rcs).arrows)).setArrows rcs [])
      s (L + L') := by
  intro h₁
  have hw := hb.weaken hb'
  have hle := hb.size_lt.le
  have hs := hb.curr_mem
  have hrcs := hb'.curr_mem
  have hne : s ≠ rcs := fun heq => by
    have h1 := hs.2
    have h2 := hrcs.1
    omega
  have hedge : ∀ p u q, ((h₁.setArrows s ((h₁.state s).arrows ++
      (h₁.state rcs).arrows)).setArrows rcs []).Edge p u q ↔
        h''.Edge p u q ∨ (p = s ∧ u = [] ∧ q = rcs) := by
    intro p u q
    rw [edge_setArrows, edge_setArrows, edge_addChild, and_comm (a := q = rcs)]
    rfl
  have harrows : (((h₁.setArrows s ((h₁.state s).arrows ++
      (h₁.state rcs).arrows)).setArrows rcs []).state s).arrows =
        (h''.state s).arrows ++ (h''.state rcs).arrows := by
    rw [arrows_setArrows, if_neg hne, arrows_setArrows, if_pos rfl, arrows_addChild,
      arrows_addChild]
  have hsold : h''.state s = h'.state s := hb'.frame s hs.2
  have hnew : ∀ p u q, p ∈ statesFrom h'.size h''.size → (((h₁.setArrows s ((h₁.state s).arrows ++
        (h₁.state rcs).arrows)).setArrows rcs []).Edge p u q ↔ h''.Edge p u q) := by
    intro p u q hp
    rw [hedge]
    refine or_iff_left fun hps => ?_
    exact Set.disjoint_left.1 (statesFrom_disjoint h.size h'.size h''.size) hs (hps.1 ▸ hp)
  have hnot : ∀ p u, p ∈ statesFrom h.size h'.size → ¬ h''.Edge p u s := fun p u hp hpq =>
    hb.not_entered p u hp ((edge_of_state_eq (hb'.frame p hp.2)).1 hpq)
  refine ⟨⟨fun p hp => ?_, ⟨hs.1, hs.2.trans hb'.size_lt⟩, fun a ha => ?_, ?_⟩,
    fun p u hp hpq => ?_⟩
  · have hp' := hp.trans hb.size_lt
    have hps : p ≠ s := fun heq => absurd hs.1 (by omega)
    have hpr : p ≠ rcs := fun heq => absurd hrcs.1 (by omega)
    rw [state_setArrows_of_ne _ _ hpr, state_setArrows_of_ne _ _ hps,
      state_addChild_of_ne _ _ hps, hb'.frame p hp', hb.frame p hp]
  · rw [harrows, mem_append, hsold] at ha
    rcases ha with ha | ha
    · exact ⟨(hb.sources a ha).1, (hb.sources a ha).2.trans hb'.size_lt⟩
    · exact statesFrom_mono hle (hb'.sources a ha)
  · change Fragment _ (statesFrom h.size h''.size) _ _ _
    rw [← statesFrom_union hle hb'.size_lt.le]
    refine hw.union hb'.fragment (statesFrom_disjoint _ _ _) hnot (fun p u q _ => hedge p u q)
      (fun p u q hp => hnew p u q hp) fun p u => ?_
    unfold NfaCache.Loose
    rw [harrows]
    constructor
    · rintro ⟨e, hmem, hreads⟩
      rcases mem_append.1 hmem with hmem | hmem
      · exact .inl ⟨e, hmem, hreads⟩
      · exact .inr ⟨e, hmem, hreads⟩
    · rintro (⟨e, hmem, hreads⟩ | ⟨e, hmem, hreads⟩)
      · exact ⟨e, List.mem_append_left _ hmem, hreads⟩
      · exact ⟨e, List.mem_append_right _ hmem, hreads⟩
  change p ∈ statesFrom h.size h''.size at hp
  rcases (hedge p u s).1 hpq with hpq | ⟨_, _, heq⟩
  · rw [← statesFrom_union hle hb'.size_lt.le] at hp
    rcases hp with hp | hp
    · exact hnot p u hp hpq
    · exact Set.disjoint_left.1 (statesFrom_disjoint h.size h'.size h''.size) hs
        (hb'.fragment.closed p u s hp hpq)
  · exact hne heq

/-! ### Stars -/

lemma built_star {h h' : NfaCache} {body : Nat} {L : RegLan}
    (hb : Built h.allocateState.2 h' body body L) :
    let h₁ := (h'.addChild h.size none body).connectTo body h.size
    Built h (h₁.setArrows h.size ((h₁.state h.size).arrows ++ [(h.size, none)])) h.size h.size
      (KStar.kstar L) := by
  intro h₁
  have hsize : h.allocateState.2.size = h.size + 1 := rfl
  have hbody := hb.curr_mem
  rw [hsize] at hbody
  have hlt : h.size < h'.size := (Nat.lt_succ_self _).trans hb.size_lt
  have hmem : h.size ∈ statesFrom h.size h'.size := ⟨le_rfl, hlt⟩
  have hne : h.size ≠ body := fun heq => absurd hbody.1 (by omega)
  have hstate : h'.state h.size = ⟨[], []⟩ :=
    (hb.frame h.size (Nat.lt_succ_self _)).trans (update_self _ _ _)
  have harrows1 : (h₁.state h.size).arrows = [] := by
    rw [arrows_connectTo, if_neg hne, arrows_addChild, hstate]
  have harrows : ((h₁.setArrows h.size ((h₁.state h.size).arrows ++ [(h.size, none)])).state
      h.size).arrows = [(h.size, none)] := by
    rw [arrows_setArrows, if_pos rfl, harrows1, List.nil_append]
  have hloose : (h'.addChild h.size none body).Loose body = h'.Loose body :=
    h'.loose_congr (arrows_addChild _ _)
  have hedge : ∀ p u q, (h₁.setArrows h.size ((h₁.state h.size).arrows ++
      [(h.size, none)])).Edge p u q ↔ (h'.Edge p u q ∨ (p = h.size ∧ u = [] ∧ q = body)) ∨
        (h'.Loose body p u ∧ q = h.size) := by
    intro p u q
    rw [edge_setArrows, edge_connectTo, edge_addChild, hloose, and_comm (a := q = body)]
    rfl
  have hnot : h.size ∉ statesFrom (h.size + 1) h'.size := fun hm => absurd hm.1 (by omega)
  refine ⟨fun p hp => ?_, ?_, fun a ha => ?_, ?_⟩
  · have hps : p ≠ h.size := by omega
    have hpb : p ≠ body := fun heq => absurd hbody.1 (by omega)
    rw [state_setArrows_of_ne _ _ hps, state_connectTo_of_ne _ hpb, state_addChild_of_ne _ _ hps,
      hb.frame p (hp.trans (Nat.lt_succ_self _))]
    · exact update_of_ne hps _ _
    intro a ha heq
    rw [arrows_addChild] at ha
    have hge := (hb.sources a ha).1
    rw [hsize] at hge
    omega
  · rw [size_setArrows, size_connectTo]
    exact hmem
  · rw [harrows, mem_singleton] at ha
    rw [size_setArrows, size_connectTo, ha]
    exact hmem
  have hstar : (h₁.setArrows h.size ((h₁.state h.size).arrows ++ [(h.size, none)])).Loose
      h.size = fun p u => p = h.size ∧ u = [] := by
    funext p u
    unfold NfaCache.Loose
    rw [harrows]
    refine propext ⟨?_, ?_⟩
    · rintro ⟨e, hmem, hreads⟩
      injection mem_singleton.1 hmem with h1 h2
      subst h2
      exact ⟨h1, hreads⟩
    · rintro ⟨rfl, rfl⟩
      exact ⟨none, List.mem_singleton_self _, rfl⟩
  rw [hstar, size_setArrows, size_connectTo, size_addChild, ← statesFrom_insert hlt]
  refine hb.fragment.star hnot (fun u q => ?_) fun p u q hp => ?_
  · rw [hedge]
    constructor
    · rintro ((⟨e, hmem, _⟩ | ⟨_, rfl, rfl⟩) | ⟨hexit, _⟩)
      · rw [hstate] at hmem
        cases hmem
      · exact ⟨rfl, rfl⟩
      · exact absurd (hb.fragment.loose _ u hexit) hnot
    · rintro ⟨rfl, rfl⟩
      exact .inl (.inr ⟨rfl, rfl, rfl⟩)
  rw [hedge, or_assoc]
  refine or_congr_right (or_iff_right fun hps => ?_)
  have hge := hp.1
  rw [hsize] at hge
  omega

/-! ### The construction -/

lemma readsEdge_allchar : ({ u | readsEdge (some .allchar) u } : RegLan) = reAllchar := by
  ext u
  constructor
  · rintro ⟨c, rfl, _⟩
    exact rfl
  intro hu
  obtain ⟨c, rfl⟩ := List.length_eq_one_iff.1 hu
  exact ⟨c, rfl, rfl⟩

lemma readsEdge_range (a b : CodePoint) :
    ({ u | readsEdge (some (.range a b)) u } : RegLan) = reRange [a] [b] := by
  ext u
  constructor
  · rintro ⟨c, rfl, hc⟩
    exact ⟨c, rfl, of_decide_eq_true hc⟩
  · rintro ⟨c, rfl, hc⟩
    exact ⟨c, rfl, decide_eq_true hc⟩

mutual

lemma built_constructInternal : ∀ (r : Regex), canEvaluate r = true → ∀ h,
    Built h (constructInternal r h).2 (constructInternal r h).1 (constructInternal r h).1 r.lang
  | .toRe [], _, h => by
      rw [constructInternal, Regex.lang]
      exact built_single h none
  | .toRe (c :: cs), _, h => by
      rw [constructInternal, Regex.lang]
      exact built_constructString (chain_init h) c cs
  | .allchar, _, h => by
      rw [constructInternal, Regex.lang, ← readsEdge_allchar]
      exact built_single h _
  | .range a b, _, h => by
      rw [constructInternal, Regex.lang, ← readsEdge_range]
      exact built_single h _
  | .union rs, hev, h => by
      rw [canEvaluate] at hev
      have hu := unionBuilt_constructUnion rs hev _ _ _ _ (unionBuilt_init h)
      rw [zero_add] at hu
      rw [constructInternal, Regex.lang]
      exact hu.toBuilt
  | .star r, hev, h => by
      rw [canEvaluate] at hev
      rw [constructInternal, Regex.lang]
      exact built_star (built_constructInternal r hev _)
  | .concat r1 r2 rs, hev, h => by
      rw [canEvaluate, Bool.and_eq_true, Bool.and_eq_true] at hev
      have h1 := built_constructInternal r1 hev.1.1 h
      have h2 := built_constructInternal r2 hev.1.2 (constructInternal r1 h).2
      have hne : (constructInternal r1 h).1 ≠
          (constructInternal r2 (constructInternal r1 h).2).1 := fun heq => by
        have hlt := h1.curr_mem.2
        have hge := h2.curr_mem.1
        omega
      obtain ⟨hbuilt, hne'⟩ := built_constructConcat rs hev.2 _ _ _ _ _ (h1.connect h2) hne
      rw [constructInternal, Regex.lang, ← mul_assoc]
      exact hbuilt.finish hne'
  | .inter _, hev, _ => by
      rw [canEvaluate] at hev
      cases hev
  | .comp _, hev, _ => by
      rw [canEvaluate] at hev
      cases hev
  | .none, hev, _ => by
      rw [canEvaluate] at hev
      cases hev

lemma built_constructConcat : ∀ (rs : List Regex), canEvaluateAll rs = true →
    ∀ h h' start curr L, Built h h' start curr L → start ≠ curr →
      Built h (constructConcat rs curr h').2 start (constructConcat rs curr h').1
        (L * Regex.langConcat rs) ∧ start ≠ (constructConcat rs curr h').1
  | [], _, h, h', start, curr, L, hb, hne => by
      rw [constructConcat, Regex.langConcat, mul_one]
      exact ⟨hb, hne⟩
  | r :: rs, hev, h, h', start, curr, L, hb, _ => by
      rw [canEvaluateAll, Bool.and_eq_true] at hev
      have hr := built_constructInternal r hev.1 h'
      have hne : start ≠ (constructInternal r h').1 := fun heq => by
        have hlt := hb.fragment.start_mem.2
        have hge := hr.curr_mem.1
        omega
      rw [constructConcat, Regex.langConcat, ← mul_assoc]
      exact built_constructConcat rs hev.2 _ _ _ _ _ (hb.connect hr) hne

lemma unionBuilt_constructUnion : ∀ (rs : List Regex), canEvaluateAll rs = true →
    ∀ h h' s L, UnionBuilt h h' s L →
      UnionBuilt h (constructUnion rs s h') s (L + Regex.langUnion rs)
  | [], _, h, h', s, L, hb => by
      rw [constructUnion, Regex.langUnion, add_zero]
      exact hb
  | r :: rs, hev, h, h', s, L, hb => by
      rw [canEvaluateAll, Bool.and_eq_true] at hev
      rw [constructUnion, Regex.langUnion, ← add_assoc]
      exact unionBuilt_constructUnion rs hev.2 _ _ _ _
        (hb.step (built_constructInternal r hev.1 h'))

end

end EthosCpc.Cvc5
