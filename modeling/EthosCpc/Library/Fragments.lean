import Mathlib.Computability.Language
import Mathlib.Order.CompletePartialOrder

/-!
# Fragments of an automaton

Paths of a graph whose edges read words, and fragments of such a graph: a
closed set of states with a start and with loose ends, that reads a language
from the start to a loose end.  The three ways of putting fragments together
are the constructors of regular expressions: one after the other, side by
side, and around a loop.
-/

namespace EthosCpc.Library

open List (append_assoc append_nil)

variable {σ α : Type*} {E E' : σ → List α → σ → Prop}

/-- The word that is read from one state to another. -/
inductive Path (E : σ → List α → σ → Prop) : σ → List α → σ → Prop
  | nil (p : σ) : Path E p [] p
  | cons {p q r : σ} {u v : List α} (edge : E p u q) (rest : Path E q v r) : Path E p (u ++ v) r

namespace Path

variable {p q r : σ} {u v w : List α}

lemma single (h : E p u q) : Path E p u q := by
  simpa using Path.cons h (.nil q)

lemma append (h : Path E p u q) (h' : Path E q v r) : Path E p (u ++ v) r := by
  induction h with
  | nil p => exact h'
  | cons edge _ ih =>
    rw [append_assoc]
    exact .cons edge (ih h')

variable {D : Set σ}

lemma mem (hclosed : ∀ p u q, p ∈ D → E p u q → q ∈ D) (h : Path E p u q) (hp : p ∈ D) : q ∈ D := by
  induction h with
  | nil p => exact hp
  | cons edge _ ih => exact ih (hclosed _ _ _ hp edge)

lemma congr (hclosed : ∀ p u q, p ∈ D → E p u q → q ∈ D)
    (hE : ∀ p u q, p ∈ D → E p u q → E' p u q) (h : Path E p u q) (hp : p ∈ D) :
    Path E' p u q := by
  induction h with
  | nil p => exact .nil p
  | cons edge _ ih => exact .cons (hE _ _ _ hp edge) (ih (hclosed _ _ _ hp edge))

/-- A path from a set to a state outside leaves the set by an edge. -/
lemma exit {X : σ → List α → Prop} {t : σ}
    (hE : ∀ p u q, p ∈ D → E' p u q → (q ∈ D ∧ E p u q) ∨ (X p u ∧ q = t))
    (h : Path E' p w q) (hp : p ∈ D) (hq : q ∉ D) :
    ∃ x u v w', Path E p u x ∧ X x v ∧ Path E' t w' q ∧ w = u ++ (v ++ w') := by
  induction h with
  | nil p => exact absurd hp hq
  | cons edge rest ih =>
    rcases hE _ _ _ hp edge with ⟨hmem, hedge⟩ | ⟨hexit, rfl⟩
    · obtain ⟨x, u, v, w', hpath, hexit, hrest, rfl⟩ := ih hmem hq
      exact ⟨x, _, v, w', .cons hedge hpath, hexit, hrest, by rw [append_assoc]⟩
    · exact ⟨_, [], _, _, .nil _, hexit, rest, rfl⟩

end Path

/-- A closed set of states that reads a language from its start to its loose ends. -/
structure Fragment (E : σ → List α → σ → Prop) (D : Set σ) (start : σ)
    (X : σ → List α → Prop) (L : Language α) : Prop where
  closed : ∀ p u q, p ∈ D → E p u q → q ∈ D
  start_mem : start ∈ D
  loose : ∀ p u, X p u → p ∈ D
  reads : ∀ w, w ∈ L ↔ ∃ p u v, Path E start u p ∧ X p v ∧ w = u ++ v

namespace Fragment

variable {D D₁ D₂ : Set σ} {s s₁ s₂ : σ} {X X₁ X₂ : σ → List α → Prop}
  {L L₁ L₂ : Language α}

lemma congr (h : Fragment E D s X L) (hE : ∀ p u q, p ∈ D → (E' p u q ↔ E p u q)) :
    Fragment E' D s X L where
  closed p u q hp hpq := h.closed p u q hp ((hE p u q hp).1 hpq)
  start_mem := h.start_mem
  loose := h.loose
  reads w := by
    have hclosed' : ∀ p u q, p ∈ D → E' p u q → q ∈ D := fun p u q hp hpq =>
      h.closed p u q hp ((hE p u q hp).1 hpq)
    rw [h.reads w]
    constructor
    · rintro ⟨p, u, v, hpath, hexit, rfl⟩
      exact ⟨p, u, v, hpath.congr h.closed (fun p u q hp => (hE p u q hp).2) h.start_mem,
        hexit, rfl⟩
    rintro ⟨p, u, v, hpath, hexit, rfl⟩
    exact ⟨p, u, v, hpath.congr hclosed' (fun p u q hp => (hE p u q hp).1) h.start_mem, hexit, rfl⟩

lemma single (hs : ∀ u q, ¬ E s u q) (hX : ∀ p u, X p u ↔ p = s ∧ u ∈ L) :
    Fragment E {s} s X L where
  closed p u q hp hpq := absurd (hp ▸ hpq) (hs u q)
  start_mem := rfl
  loose p u hexit := ((hX p u).1 hexit).1
  reads w := by
    constructor
    · intro hw
      exact ⟨s, [], w, .nil s, (hX s w).2 ⟨rfl, hw⟩, rfl⟩
    rintro ⟨p, u, v, hpath, hexit, rfl⟩
    obtain ⟨rfl, hv⟩ := (hX p v).1 hexit
    cases hpath with
    | nil p => exact hv
    | cons edge _ => exact absurd edge (hs _ _)

lemma extend {x : σ} (h : Fragment E D s (fun p u => p = x ∧ u = []) L) (M : Language α) :
    Fragment E D s (fun p u => p = x ∧ u ∈ M) (L * M) where
  closed := h.closed
  start_mem := h.start_mem
  loose p u hexit := h.loose p [] ⟨hexit.1, rfl⟩
  reads w := by
    rw [Language.mem_mul]
    constructor
    · rintro ⟨a, ha, b, hb, rfl⟩
      obtain ⟨p, u, v, hpath, ⟨rfl, rfl⟩, rfl⟩ := (h.reads a).1 ha
      exact ⟨p, u, b, hpath, ⟨rfl, hb⟩, by rw [append_nil]⟩
    rintro ⟨p, u, v, hpath, ⟨rfl, hv⟩, rfl⟩
    exact ⟨u, (h.reads u).2 ⟨p, u, [], hpath, ⟨rfl, rfl⟩, (append_nil u).symm⟩, v, hv,
      rfl⟩

/-- One fragment after the other: the loose ends of the first lead to the start of the second. -/
lemma concat (h1 : Fragment E D₁ s₁ X₁ L₁) (h2 : Fragment E D₂ s₂ X₂ L₂) (hdisj : Disjoint D₁ D₂)
    (hE1 : ∀ p u q, p ∈ D₁ → (E' p u q ↔ E p u q ∨ (X₁ p u ∧ q = s₂)))
    (hE2 : ∀ p u q, p ∈ D₂ → (E' p u q ↔ E p u q)) :
    Fragment E' (D₁ ∪ D₂) s₁ X₂ (L₁ * L₂) := by
  have h2' := h2.congr hE2
  refine ⟨?_, .inl h1.start_mem, fun p u hexit => .inr (h2.loose p u hexit), fun w => ?_⟩
  · rintro p u q (hp | hp) hpq
    · rcases (hE1 p u q hp).1 hpq with hedge | ⟨_, rfl⟩
      · exact .inl (h1.closed p u q hp hedge)
      · exact .inr h2.start_mem
    · exact .inr (h2'.closed p u q hp hpq)
  rw [Language.mem_mul]
  constructor
  · rintro ⟨a, ha, b, hb, rfl⟩
    obtain ⟨p, u, v, hpath, hexit, rfl⟩ := (h1.reads a).1 ha
    obtain ⟨p', u', v', hpath', hexit', rfl⟩ := (h2'.reads b).1 hb
    have hfirst : Path E' s₁ u p := hpath.congr h1.closed
      (fun p u q hp hpq => (hE1 p u q hp).2 (.inl hpq)) h1.start_mem
    have hcross : E' p v s₂ := (hE1 p v s₂ (h1.loose p v hexit)).2 (.inr ⟨hexit, rfl⟩)
    exact ⟨p', u ++ (v ++ u'), v', hfirst.append (.cons hcross hpath'), hexit', by simp⟩
  rintro ⟨p, u, v, hpath, hexit, rfl⟩
  have hp : p ∉ D₁ := fun hmem => Set.disjoint_left.1 hdisj hmem (h2.loose p v hexit)
  obtain ⟨x, a, b, c, hpath1, hexit1, hpath2, rfl⟩ := hpath.exit (fun p u q hp hpq =>
    ((hE1 p u q hp).1 hpq).imp (fun hedge => ⟨h1.closed p u q hp hedge, hedge⟩) id)
    h1.start_mem hp
  exact ⟨a ++ b, (h1.reads _).2 ⟨x, a, b, hpath1, hexit1, rfl⟩, c ++ v,
    (h2'.reads _).2 ⟨p, c, v, hpath2, hexit, rfl⟩, by simp⟩

/-- One more fragment beside another one, whose start no edge leads to. -/
lemma union (h1 : Fragment E D₁ s₁ X₁ L₁) (h2 : Fragment E D₂ s₂ X₂ L₂)
    (hdisj : Disjoint D₁ D₂) (hs1 : ∀ p u, p ∈ D₁ → ¬ E p u s₁)
    (hE1 : ∀ p u q, p ∈ D₁ → (E' p u q ↔ E p u q ∨ (p = s₁ ∧ u = [] ∧ q = s₂)))
    (hE2 : ∀ p u q, p ∈ D₂ → (E' p u q ↔ E p u q)) (hX : ∀ p u, X p u ↔ X₁ p u ∨ X₂ p u) :
    Fragment E' (D₁ ∪ D₂) s₁ X (L₁ + L₂) := by
  have h2' := h2.congr hE2
  have hnot : s₁ ∉ D₂ := Set.disjoint_left.1 hdisj h1.start_mem
  refine ⟨?_, .inl h1.start_mem, ?_, fun w => ?_⟩
  · rintro p u q (hp | hp) hpq
    · rcases (hE1 p u q hp).1 hpq with hedge | ⟨_, _, rfl⟩
      · exact .inl (h1.closed p u q hp hedge)
      · exact .inr h2.start_mem
    · exact .inr (h2'.closed p u q hp hpq)
  · intro p u hexit
    rcases (hX p u).1 hexit with hexit | hexit
    · exact .inl (h1.loose p u hexit)
    · exact .inr (h2.loose p u hexit)
  rw [Language.mem_add]
  -- past the start, a path stays among the edges of one of the two
  have hstay : ∀ p u q, Path E' p u q → p ∈ D₁ → p ≠ s₁ → Path E p u q ∧ q ∈ D₁ := by
    intro p u q hpath
    induction hpath with
    | nil p => exact fun hp _ => ⟨.nil p, hp⟩
    | cons edge _ ih =>
      intro hp hne
      rcases (hE1 _ _ _ hp).1 edge with hedge | ⟨rfl, _⟩
      · have hq := h1.closed _ _ _ hp hedge
        obtain ⟨hrest, hmem⟩ := ih hq fun heq => hs1 _ _ hp (heq ▸ hedge)
        exact ⟨.cons hedge hrest, hmem⟩
      · contradiction
  constructor
  · rintro (hw | hw)
    · obtain ⟨p, u, v, hpath, hexit, rfl⟩ := (h1.reads w).1 hw
      exact ⟨p, u, v, hpath.congr h1.closed
        (fun p u q hp hpq => (hE1 p u q hp).2 (.inl hpq)) h1.start_mem,
        (hX p v).2 (.inl hexit), rfl⟩
    · obtain ⟨p, u, v, hpath, hexit, rfl⟩ := (h2'.reads w).1 hw
      have hedge : E' s₁ [] s₂ := (hE1 _ _ _ h1.start_mem).2 (.inr ⟨rfl, rfl, rfl⟩)
      exact ⟨p, [] ++ u, v, .cons hedge hpath, (hX p v).2 (.inr hexit), rfl⟩
  rintro ⟨p, u, v, hpath, hexit, rfl⟩
  have hloose : ∀ {p}, p ∈ D₁ → X p v → X₁ p v := fun hp hexit =>
    ((hX _ v).1 hexit).resolve_right fun hexit2 =>
      Set.disjoint_left.1 hdisj hp (h2.loose _ v hexit2)
  cases hpath with
  | nil _ => exact .inl ((h1.reads _).2 ⟨s₁, [], v, .nil s₁, hloose h1.start_mem hexit, rfl⟩)
  | cons edge rest =>
    rcases (hE1 _ _ _ h1.start_mem).1 edge with hedge | ⟨_, rfl, rfl⟩
    · have hq := h1.closed _ _ _ h1.start_mem hedge
      obtain ⟨hrest, hmem⟩ :=
        hstay _ _ _ rest hq fun heq => hs1 _ _ h1.start_mem (heq ▸ hedge)
      exact .inl ((h1.reads _).2 ⟨p, _, v, .cons hedge hrest, hloose hmem hexit, rfl⟩)
    have hmem : p ∈ D₂ := rest.mem h2'.closed h2.start_mem
    have hexit2 := ((hX p v).1 hexit).resolve_left fun hexit1 =>
      Set.disjoint_left.1 hdisj (h1.loose p v hexit1) hmem
    exact .inr ((h2'.reads _).2 ⟨p, _, v, rest, hexit2, rfl⟩)

/-- A fragment around a loop through a new state. -/
lemma star (h : Fragment E D s X L) {t : σ} (ht : t ∉ D) (hEt : ∀ u q, E' t u q ↔ u = [] ∧ q = s)
    (hE : ∀ p u q, p ∈ D → (E' p u q ↔ E p u q ∨ (X p u ∧ q = t))) :
    Fragment E' (insert t D) t (fun p u => p = t ∧ u = []) (KStar.kstar L) := by
  have hback : ∀ w ∈ L, Path E' t w t := by
    intro w hw
    obtain ⟨p, u, v, hpath, hexit, rfl⟩ := (h.reads w).1 hw
    have hbody : Path E' s u p := hpath.congr h.closed
      (fun p u q hp hpq => (hE p u q hp).2 (.inl hpq)) h.start_mem
    have hcross : E' p v t := (hE p v t (h.loose p v hexit)).2 (.inr ⟨hexit, rfl⟩)
    have hstart : E' t [] s := (hEt [] s).2 ⟨rfl, rfl⟩
    exact (Path.cons hstart (hbody.append (.single hcross)) :)
  -- a path to the new state is a sequence of turns, the first one possibly begun
  have hturns : ∀ p w q, Path E' p w q → q = t → (p = t → w ∈ KStar.kstar L) ∧
      (p ∈ D → ∃ x u v w', Path E p u x ∧ X x v ∧ w' ∈ KStar.kstar L ∧ w = u ++ (v ++ w')) := by
    intro p w q hpath
    induction hpath with
    | nil p =>
      rintro rfl
      exact ⟨fun _ => Language.nil_mem_kstar L, fun hp => absurd hp ht⟩
    | cons edge rest ih =>
      intro hq
      obtain ⟨iht, ihD⟩ := ih hq
      constructor
      · rintro rfl
        obtain ⟨rfl, rfl⟩ := (hEt _ _).1 edge
        obtain ⟨x, u, v, w', hbody, hexit, hw', rfl⟩ := ihD h.start_mem
        have hturn : u ++ v ∈ L := (h.reads _).2 ⟨x, u, v, hbody, hexit, rfl⟩
        have hmul : (u ++ v) ++ w' ∈ L * KStar.kstar L := Language.append_mem_mul hturn hw'
        rw [← Language.one_add_self_mul_kstar_eq_kstar, List.nil_append, ← append_assoc]
        exact .inr hmul
      · intro hp
        rcases (hE _ _ _ hp).1 edge with hedge | ⟨hexit, rfl⟩
        · obtain ⟨x, u, v, w', hbody, hexit, hw', rfl⟩ := ihD (h.closed _ _ _ hp hedge)
          exact ⟨x, _, v, w', .cons hedge hbody, hexit, hw', by rw [append_assoc]⟩
        · exact ⟨_, [], _, _, .nil _, hexit, iht rfl, rfl⟩
  refine ⟨?_, Set.mem_insert t D, fun p u hexit => hexit.1 ▸ Set.mem_insert t D, fun w => ?_⟩
  · rintro p u q (rfl | hp) hpq
    · obtain ⟨_, rfl⟩ := (hEt u q).1 hpq
      exact .inr h.start_mem
    · rcases (hE p u q hp).1 hpq with hedge | ⟨_, rfl⟩
      · exact .inr (h.closed p u q hp hedge)
      · exact .inl rfl
  constructor
  · intro hw
    obtain ⟨ws, rfl, hws⟩ := Language.mem_kstar.1 hw
    clear hw
    refine ⟨t, ws.flatten, [], ?_, ⟨rfl, rfl⟩, (append_nil _).symm⟩
    induction ws with
    | nil => exact .nil t
    | cons a ws ih =>
      rw [List.flatten_cons]
      exact (hback a (hws a (.head _))).append (ih fun y hy => hws y (List.mem_cons_of_mem a hy))
  · rintro ⟨p, u, v, hpath, ⟨rfl, rfl⟩, rfl⟩
    rw [append_nil]
    exact (hturns _ _ _ hpath rfl).1 rfl

/-- With its loose ends led to an accepting state, the fragment is an automaton for the
language. -/
lemma accept (h : Fragment E D s X L) {f : σ} (hf : f ∉ D) (hEf : ∀ u q, ¬ E' f u q)
    (hE : ∀ p u q, p ∈ D → (E' p u q ↔ E p u q ∨ (X p u ∧ q = f))) (w : List α) :
    w ∈ L ↔ Path E' s w f := by
  rw [h.reads w]
  constructor
  · rintro ⟨p, u, v, hpath, hexit, rfl⟩
    have hcross : E' p v f := (hE p v f (h.loose p v hexit)).2 (.inr ⟨hexit, rfl⟩)
    exact (hpath.congr h.closed (fun p u q hp hpq => (hE p u q hp).2 (.inl hpq))
      h.start_mem).append (.single hcross)
  intro hpath
  obtain ⟨x, u, v, w', hbody, hexit, hrest, rfl⟩ := hpath.exit (fun p u q hp hpq =>
    ((hE p u q hp).1 hpq).imp (fun hedge => ⟨h.closed p u q hp hedge, hedge⟩) id)
    h.start_mem hf
  cases hrest with
  | nil _ => exact ⟨x, u, v, hbody, hexit, by rw [append_nil]⟩
  | cons edge _ => exact absurd edge (hEf _ _)

end Fragment

end EthosCpc.Library
