import EthosCpc.Ethos.Kind
import Mathlib.Data.List.Basic
import Mathlib.Order.Nat
import Mathlib.Algebra.GroupWithZero.Nat
import EthosCpc.Library.Inversion

/-!
# Matching

`TypeChecker::match`, and the sequences of calls to it in `getTypeAppInternal`
and `evaluateProgramInternal`.  Expressions are pointers into an acyclic graph
with maximal sharing, so the comparison of pointers is that of expressions.

A pair that was visited matches under every substitution that makes the pairs of
smaller rank on the stack match, since its children were put there.
-/

namespace EthosCpc

open List (forall_mem_cons forall_mem_nil not_mem_nil of_mem_zip)
open Function (update update_of_ne update_self)

/-- Expressions by their pointers.  Compound expressions with the same kind and children are the
same; leaves are their own. -/
structure ExprGraph (P : Type) where
  kind : P → Kind
  children : P → List P
  rank : P → Nat
  rank_lt : ∀ {p c}, c ∈ children p → rank c < rank p
  shared : ∀ {p q}, children p ≠ [] → kind q = kind p → children q = children p → q = p

namespace ExprGraph

variable {P : Type} (G : ExprGraph P)

def isGround (p : P) : Bool :=
  if (G.children p).isEmpty then decide (G.kind p ≠ .param ∧ G.kind p ≠ .any)
  else (G.children p).attach.all fun c => isGround c.1
termination_by G.rank p
decreasing_by exact G.rank_lt c.2

/-- The number of nodes of an expression as a tree. -/
def size (p : P) : Nat := 1 + ((G.children p).attach.map fun c => size c.1).sum
termination_by G.rank p
decreasing_by exact G.rank_lt c.2

/-- The stack, the context and the visited pairs. -/
structure MatchState (P : Type) where
  stack : List (P × P)
  ctx : P → Option P
  visited : List (P × P)

section Algorithm

variable [DecidableEq P]

/-- A round for the pair that was on top of the stack; `none` when `match` returns false. -/
def round (a b : P) (s : MatchState P) : Option (MatchState P) :=
  if G.isGround a then
    if a = b then some s else none
  else if (a, b) ∈ s.visited then some s
  else
    let s := { s with visited := (a, b) :: s.visited }
    if (G.children a).isEmpty then
      if G.kind a = .param then
        match s.ctx a with
        | none => some { s with ctx := update s.ctx a (some b) }
        | some c => if c ≠ b then none else some s
      else none
    else if (G.children a).length ≠ (G.children b).length ∨ G.kind a ≠ G.kind b then none
    else some { s with stack := ((G.children a).zip (G.children b)).reverse ++ s.stack }

/-- The loop of `match`, with at most `k` rounds. -/
def matchLoop : Nat → MatchState P → Option (Bool × MatchState P)
  | 0, _ => none
  | k + 1, s =>
    match s.stack with
    | [] => some (true, s)
    | (a, b) :: rest =>
      match G.round a b { s with stack := rest } with
      | none => some (false, { s with stack := rest })
      | some s' => matchLoop k s'

/-- `match`, with the pairs that were visited before. -/
def «match» (k : Nat) (a b : P) (ctx : P → Option P) (visited : List (P × P)) :
    Option (Bool × MatchState P) :=
  G.matchLoop k ⟨[(a, b)], ctx, visited⟩

/-- The calls for the arguments, in one context.  `getTypeAppInternal` also keeps the visited pairs
from one call to the next. -/
def matchArgs (keep : Bool) (k : Nat) :
    List (P × P) → (P → Option P) → List (P × P) → Option (Bool × (P → Option P))
  | [], ctx, _ => some (true, ctx)
  | (a, b) :: rest, ctx, visited => do
    let (r, s) ← G.match k a b ctx visited
    if r then matchArgs keep k rest s.ctx (if keep then s.visited else []) else some (false, s.ctx)

end Algorithm

/-! ## Substitutions -/

/-- `x` occurs in an expression. -/
inductive Occurs (x : P) : P → Prop
  | self : Occurs x x
  | child {p c : P} (hc : c ∈ G.children p) (h : Occurs x c) : Occurs x p

/-- A parameter of an expression. -/
def ParamOf (p a : P) : Prop := G.Occurs p a ∧ G.kind p = .param ∧ G.children p = []

/-- The wildcard `ANY` does not occur. -/
def NoAny (a : P) : Prop := ∀ x, G.Occurs x a → G.children x = [] → G.kind x ≠ .any

/-- The application of a substitution to `a` is `b`. -/
inductive Applied (σ : P → Option P) : P → P → Prop
  | param {a b : P} (hc : G.children a = []) (hk : G.kind a = .param) (h : σ a = some b) :
      Applied σ a b
  | leaf {a : P} (hc : G.children a = []) (hk : G.kind a ≠ .param) : Applied σ a a
  | node {a b : P} (hc : G.children a ≠ []) (hk : G.kind b = G.kind a)
      (hlen : (G.children a).length = (G.children b).length)
      (h : ∀ x ∈ (G.children a).zip (G.children b), Applied σ x.1 x.2) : Applied σ a b

def Extends (σ ctx : P → Option P) : Prop := ∀ p b, ctx p = some b → σ p = some b

/-- A substitution that extends the context, is defined on it and on the parameters of the
patterns, and makes each pattern its term. -/
structure Solution (ctx : P → Option P) (xs : List (P × P)) (σ : P → Option P) : Prop where
  extend : Extends σ ctx
  dom : ∀ p, σ p ≠ none ↔ ctx p ≠ none ∨ ∃ x ∈ xs, G.ParamOf p x.1
  applied : ∀ x ∈ xs, G.Applied σ x.1 x.2

/-- The answer for some pairs: whether there is a solution, and it is the context.  A pattern with
`ANY` in it has none. -/
structure Answers (ctx : P → Option P) (xs : List (P × P)) (r : Bool) (ctx' : P → Option P) :
    Prop where
  iff : r = true ↔ (∀ x ∈ xs, G.NoAny x.1) ∧ ∃ σ, G.Solution ctx xs σ
  unique : r = true → ∀ σ, G.Solution ctx xs σ ↔ σ = ctx'

variable {G} {a b c p : P} {σ ctx ctx' : P → Option P} {xs : List (P × P)} {s s' : MatchState P}

lemma isGround_leaf (h : G.children a = []) :
    G.isGround a = true ↔ G.kind a ≠ .param ∧ G.kind a ≠ .any := by
  rw [isGround, h]
  simp

lemma isGround_node (h : G.children a ≠ []) :
    G.isGround a = true ↔ ∀ c ∈ G.children a, G.isGround c = true := by
  rw [isGround, if_neg (by simpa using h)]
  simp

lemma size_eq : G.size a = 1 + ((G.children a).map G.size).sum := by
  rw [size]
  simp

lemma Occurs.cases_node (h : G.Occurs p a) : p = a ∨ ∃ c ∈ G.children a, G.Occurs p c := by
  cases h with
  | self => exact .inl rfl
  | child hc h => exact .inr ⟨_, hc, h⟩

lemma Occurs.isGround (h : G.Occurs p a) (ha : G.isGround a = true) : G.isGround p = true := by
  induction h with
  | self => exact ha
  | child hc _ ih => exact ih ((isGround_node (List.ne_nil_of_mem hc)).1 ha _ hc)

/-- The pair matches: `ANY` does not occur in the pattern, and its instance is the term. -/
def Matched (G : ExprGraph P) (σ : P → Option P) (x : P × P) : Prop :=
  G.Applied σ x.1 x.2 ∧ G.NoAny x.1

lemma exists_mem_zip {as bs : List P} (hlen : as.length = bs.length) (hc : c ∈ as) :
    ∃ d, (c, d) ∈ as.zip bs := by
  rw [← List.map_fst_zip hlen.le] at hc
  obtain ⟨⟨c, d⟩, hmem, rfl⟩ := List.mem_map.1 hc
  exact ⟨d, hmem⟩

lemma eq_of_zip {as bs : List P} (hlen : as.length = bs.length)
    (h : ∀ x ∈ as.zip bs, x.2 = x.1) : bs = as := by
  calc bs = (as.zip bs).map Prod.snd := (List.map_snd_zip hlen.ge).symm
    _ = (as.zip bs).map Prod.fst := List.map_congr_left h
    _ = as := List.map_fst_zip hlen.le

lemma applied_ground (ha : G.isGround a = true) : G.Applied σ a b ↔ b = a := by
  constructor
  · intro h
    induction h with
    | param hc hk => exact absurd hk ((isGround_leaf hc).1 ha).1
    | leaf => rfl
    | node hc hk hlen _ ih =>
      refine G.shared hc hk (eq_of_zip hlen fun x hx => ih x hx ?_)
      exact (isGround_node hc).1 ha _ (of_mem_zip hx).1
  rintro rfl
  induction hr : G.rank b using Nat.strong_induction_on generalizing b with
  | _ n ih =>
    by_cases hc : G.children b = []
    · exact .leaf hc ((isGround_leaf hc).1 ha).1
    refine .node hc rfl rfl fun x hx => ?_
    have hmem := (of_mem_zip hx).1
    have heq : x.1 = x.2 := by
      rw [List.zip_eq_zipWith, List.zipWith_self] at hx
      obtain ⟨c, _, rfl⟩ := List.mem_map.1 hx
      rfl
    rw [← heq]
    exact ih _ (hr ▸ G.rank_lt hmem) ((isGround_node hc).1 ha _ hmem) rfl

lemma matched_ground (ha : G.isGround a = true) : G.Matched σ (a, b) ↔ a = b := by
  refine (and_iff_left ?_).trans ((applied_ground ha).trans eq_comm)
  exact fun x hx hc => ((isGround_leaf hc).1 (hx.isGround ha)).2

lemma noAny_leaf (hc : G.children a = []) : G.NoAny a ↔ G.kind a ≠ .any := by
  constructor
  · exact fun h => h a .self hc
  rintro h x hx -
  rcases hx.cases_node with rfl | ⟨c, hmem, -⟩
  · exact h
  · exact absurd hmem (hc ▸ not_mem_nil)

lemma matched_param (hc : G.children a = []) (hk : G.kind a = .param) :
    G.Matched σ (a, b) ↔ σ a = some b := by
  refine (and_iff_left ((noAny_leaf hc).2 (by rw [hk]; decide))).trans ⟨fun h => ?_, .param hc hk⟩
  cases h with
  | param _ _ h => exact h
  | leaf _ hne => exact absurd hk hne
  | node hne => exact absurd hc hne

lemma not_matched_any (hc : G.children a = []) (hk : G.kind a ≠ .param)
    (ha : ¬ G.isGround a = true) : ¬ G.Matched σ (a, b) := by
  rintro ⟨-, hno⟩
  exact ha ((isGround_leaf hc).2 ⟨hk, (noAny_leaf hc).1 hno⟩)

lemma matched_node (hc : G.children a ≠ []) : G.Matched σ (a, b) ↔ G.kind b = G.kind a ∧
      (G.children a).length = (G.children b).length ∧
      ∀ x ∈ (G.children a).zip (G.children b), G.Matched σ x := by
  constructor
  · rintro ⟨happ, hno⟩
    cases happ with
    | param h => exact absurd h hc
    | leaf h => exact absurd h hc
    | node _ hk hlen h =>
      refine ⟨hk, hlen, fun x hx => ⟨h x hx, fun y hy => hno y ?_⟩⟩
      exact .child (of_mem_zip hx).1 hy
  · rintro ⟨hk, hlen, h⟩
    refine ⟨.node hc hk hlen fun x hx => (h x hx).1, fun y hy hleaf => ?_⟩
    rcases hy.cases_node with rfl | ⟨c, hmem, hy⟩
    · exact absurd hleaf hc
    · obtain ⟨d, hd⟩ := exists_mem_zip hlen hmem
      exact (h _ hd).2 y hy hleaf

/-- A substitution that matches is defined on the parameters of the pattern. -/
lemma Applied.dom (h : G.Applied σ a b) (hp : G.ParamOf p a) : σ p ≠ none := by
  induction h with
  | param hc hk hσ =>
    rcases hp.1.cases_node with rfl | ⟨c, hmem, -⟩
    · rw [hσ]
      exact Option.some_ne_none _
    · exact absurd hmem (hc ▸ not_mem_nil)
  | leaf hc hk =>
    rcases hp.1.cases_node with rfl | ⟨c, hmem, -⟩
    · exact absurd hp.2.1 hk
    · exact absurd hmem (hc ▸ not_mem_nil)
  | node hc _ hlen _ ih =>
    rcases hp.1.cases_node with rfl | ⟨c, hmem, hocc⟩
    · exact absurd hp.2.2 hc
    · obtain ⟨d, hd⟩ := exists_mem_zip hlen hmem
      exact ih _ hd ⟨hocc, hp.2⟩

/-! ## The loop -/

/-- The substitutions that extend a context and match some pairs. -/
def Allows (G : ExprGraph P) (ctx : P → Option P) (xs : List (P × P)) (σ : P → Option P) : Prop :=
  Extends σ ctx ∧ ∀ x ∈ xs, G.Matched σ x

/-- A visited pair matches as soon as the pairs of smaller rank on the stack do. -/
def Justified (G : ExprGraph P) (s : MatchState P) : Prop :=
  ∀ σ, Extends σ s.ctx → ∀ p ∈ s.visited,
    (∀ q ∈ s.stack, G.rank q.1 < G.rank p.1 → G.Matched σ q) → G.Matched σ p

/-- Where the context is or will be defined. -/
def Dom (G : ExprGraph P) (ctx : P → Option P) (xs : List (P × P)) (p : P) : Prop :=
  ctx p ≠ none ∨ ∃ x ∈ xs, G.ParamOf p x.1

structure Keeps (G : ExprGraph P) (s s' : MatchState P) : Prop where
  allows : ∀ σ, G.Allows s.ctx s.stack σ ↔ G.Allows s'.ctx s'.stack σ
  justified : G.Justified s'
  dom : ∀ p, G.Dom s'.ctx s'.stack p → G.Dom s.ctx s.stack p

/-- What a round must do: it fails where there is nothing to allow. -/
def RoundOk (G : ExprGraph P) (s : MatchState P) : Option (MatchState P) → Prop
  | none => ∀ σ, ¬ G.Allows s.ctx s.stack σ
  | some s' => G.Keeps s s'

/-- The state with a pair on top of its stack. -/
def MatchState.push (s : MatchState P) (a b : P) : MatchState P :=
  { s with stack := (a, b) :: s.stack }

lemma allows_cons : G.Allows ctx ((a, b) :: xs) σ ↔ G.Matched σ (a, b) ∧ G.Allows ctx xs σ := by
  unfold Allows
  rw [forall_mem_cons]
  exact and_left_comm

lemma Dom.cons {x : P × P} (h : G.Dom ctx xs p) : G.Dom ctx (x :: xs) p :=
  h.imp_right fun ⟨y, hy, hp⟩ => ⟨y, .tail _ hy, hp⟩

lemma keeps_push (hj : G.Justified (s.push a b))
    (hm : ∀ σ, G.Allows s.ctx s.stack σ → G.Matched σ (a, b))
    (hm' : ∀ σ, Extends σ s.ctx → ∀ p ∈ s.visited, (∀ q ∈ s.stack, G.rank q.1 < G.rank p.1 →
      G.Matched σ q) → G.rank a < G.rank p.1 → G.Matched σ (a, b)) : G.Keeps (s.push a b) s := by
  refine ⟨fun σ => allows_cons.trans (and_iff_right_of_imp (hm σ)), fun σ hσ p hp hq => ?_,
    fun p hp => hp.cons⟩
  exact hj σ hσ p hp (forall_mem_cons.2 ⟨hm' σ hσ p hp hq, hq⟩)

lemma Justified.visit (hj : G.Justified (s.push a b)) {s' : MatchState P}
    (hctx : ∀ σ, Extends σ s'.ctx → Extends σ s.ctx) (hvisited : s'.visited = (a, b) :: s.visited)
    (hstack : ∀ x ∈ s.stack, x ∈ s'.stack)
    (hm : ∀ σ, Extends σ s'.ctx → (∀ q ∈ s'.stack, G.rank q.1 < G.rank a → G.Matched σ q) →
      G.Matched σ (a, b)) : G.Justified s' := by
  intro σ hσ p hp hq
  rw [hvisited] at hp
  rcases List.mem_cons.1 hp with rfl | hp
  · exact hm σ hσ hq
  refine hj σ (hctx σ hσ) p hp (forall_mem_cons.2 ⟨fun hlt => ?_, fun q hmem =>
    hq q (hstack q hmem)⟩)
  exact hm σ hσ fun q hmem hlt' => hq q hmem (hlt'.trans hlt)

lemma keeps_children (hj : G.Justified (s.push a b)) (hc : G.children a ≠ [])
    (hlen : (G.children a).length = (G.children b).length) (hk : G.kind a = G.kind b) :
    G.Keeps (s.push a b) { s with
        stack := ((G.children a).zip (G.children b)).reverse ++ s.stack
        visited := (a, b) :: s.visited } := by
  have hiff : ∀ σ, G.Matched σ (a, b) ↔
      ∀ x ∈ (G.children a).zip (G.children b), G.Matched σ x := fun σ =>
    (matched_node hc).trans ((and_iff_right hk.symm).trans (and_iff_right hlen))
  have hmem : ∀ {x : P × P}, x ∈ ((G.children a).zip (G.children b)).reverse ++ s.stack ↔
      x ∈ (G.children a).zip (G.children b) ∨ x ∈ s.stack := by
    intro x
    rw [List.mem_append, List.mem_reverse]
  refine ⟨fun σ => ?_, hj.visit (fun σ hσ => hσ) rfl (fun _ hx => hmem.2 (.inr hx))
    fun σ _ hq => ?_, fun p hp => ?_⟩
  · change G.Allows s.ctx ((a, b) :: s.stack) σ ↔ _
    rw [allows_cons, hiff]
    unfold Allows
    constructor
    · rintro ⟨hchildren, hσ, hstack⟩
      exact ⟨hσ, fun x hx => (hmem.1 hx).elim (hchildren x) (hstack x)⟩
    · rintro ⟨hσ, hall⟩
      exact ⟨fun x hx => hall x (hmem.2 (.inl hx)), hσ, fun x hx => hall x (hmem.2 (.inr hx))⟩
  · refine (hiff σ).2 fun x hx => hq x (hmem.2 (.inl hx)) ?_
    exact G.rank_lt (of_mem_zip hx).1
  rcases hp with hp | ⟨x, hx, hp⟩
  · exact .inl hp
  rcases hmem.1 hx with hx | hx
  · exact .inr ⟨(a, b), .head _, .child (of_mem_zip hx).1 hp.1, hp.2⟩
  · exact Dom.cons (.inr ⟨x, hx, hp⟩)

variable [DecidableEq P]

/-- A parameter without a value gets one. -/
lemma extends_update (hnone : ctx a = none) :
    Extends σ (update ctx a (some b)) ↔ σ a = some b ∧ Extends σ ctx := by
  constructor
  · intro hσ
    refine ⟨hσ a b (update_self ..), fun p c hp => hσ p c ?_⟩
    rw [update_of_ne (by rintro rfl; rw [hnone] at hp; contradiction), hp]
  rintro ⟨hσa, hσ⟩ p c hp
  by_cases hpa : p = a
  · subst hpa
    rwa [update_self, ← hσa] at hp
  · exact hσ p c (by rwa [update_of_ne hpa] at hp)

lemma keeps_bind (hj : G.Justified (s.push a b)) (hc : G.children a = [])
    (hk : G.kind a = .param) (hnone : s.ctx a = none) :
    G.Keeps (s.push a b)
      { s with ctx := update s.ctx a (some b), visited := (a, b) :: s.visited } := by
  have hiff : ∀ σ, G.Matched σ (a, b) ↔ σ a = some b := fun σ => matched_param hc hk
  refine ⟨fun σ => ?_, hj.visit (fun σ hσ => ((extends_update hnone).1 hσ).2) rfl
    (fun _ hx => hx) fun σ hσ _ => (hiff σ).2 ((extends_update hnone).1 hσ).1, fun p hp => ?_⟩
  · change G.Allows s.ctx ((a, b) :: s.stack) σ ↔ _
    rw [allows_cons, hiff]
    unfold Allows
    rw [extends_update hnone, and_assoc]
  rcases hp with hp | hp
  · by_cases hpa : p = a
    · exact .inr ⟨(a, b), .head _, hpa ▸ .self, hpa ▸ ⟨hk, hc⟩⟩
    · exact .inl ((update_of_ne hpa (some b) s.ctx).symm ▸ hp)
  · exact Dom.cons (.inr hp)

lemma round_spec (hj : G.Justified (s.push a b)) : G.RoundOk (s.push a b) (G.round a b s) := by
  unfold round
  split
  · rename_i hground
    split
    · rename_i hab
      have hm : ∀ σ, G.Matched σ (a, b) := fun σ => (matched_ground hground).2 hab
      exact keeps_push hj (fun σ _ => hm σ) fun σ _ _ _ _ _ => hm σ
    · rename_i hab
      exact fun σ hσ => hab ((matched_ground hground).1 (allows_cons.1 hσ).1)
  rename_i hground
  split
  · -- the pair was visited, and nothing on the stack above its children is left
    rename_i hmem
    have hvisited : ∀ σ, Extends σ s.ctx → (∀ q ∈ s.stack, G.rank q.1 < G.rank a →
        G.Matched σ q) → G.Matched σ (a, b) := fun σ hσ hq =>
      hj σ hσ (a, b) hmem (forall_mem_cons.2 ⟨fun hlt => absurd hlt (lt_irrefl _), hq⟩)
    refine keeps_push hj (fun σ hσ => hvisited σ hσ.1 fun q hq _ => hσ.2 q hq) ?_
    exact fun σ hσ p _ hq hlt => hvisited σ hσ fun q hmem hlt' => hq q hmem (hlt'.trans hlt)
  dsimp only
  split
  · rename_i hleaf
    have hc := List.isEmpty_iff.1 hleaf
    split
    swap
    · rename_i hk
      exact fun σ hσ => not_matched_any hc hk hground (allows_cons.1 hσ).1
    rename_i hk
    have hiff : ∀ σ, G.Matched σ (a, b) ↔ σ a = some b := fun σ => matched_param hc hk
    split
    · rename_i hnone
      exact keeps_bind hj hc hk hnone
    rename_i c hsome
    have hctx : ∀ σ, Extends σ s.ctx → (G.Matched σ (a, b) ↔ c = b) := by
      intro σ hσ
      rw [hiff, hσ a c hsome, Option.some.injEq]
    split
    · rename_i hne
      intro σ hσ
      obtain ⟨hm, hσ⟩ := allows_cons.1 hσ
      exact hne ((hctx σ hσ.1).1 hm)
    rename_i heq
    have hm : ∀ σ, Extends σ s.ctx → G.Matched σ (a, b) :=
      fun σ hσ => (hctx σ hσ).2 (not_not.1 heq)
    exact ⟨fun σ => allows_cons.trans (and_iff_right_of_imp fun hσ => hm σ hσ.1),
      hj.visit (fun σ hσ => hσ) rfl (fun _ hx => hx) fun σ hσ _ => hm σ hσ,
      fun p hp => Dom.cons hp⟩
  · rename_i hinner
    have hc : G.children a ≠ [] := fun h => hinner (List.isEmpty_iff.2 h)
    split
    · rename_i hne
      intro σ hσ
      obtain ⟨hk, hlen, _⟩ := (matched_node hc).1 (allows_cons.1 hσ).1
      exact hne.elim (fun h => h hlen) fun h => h hk.symm
    rename_i heq
    obtain ⟨hlen, hk⟩ := not_or.1 heq
    exact keeps_children hj hc (not_not.1 hlen) (not_not.1 hk)

/-- A result for some pairs: the context at the end has as its extensions what was allowed, or
nothing was. -/
structure Decides (G : ExprGraph P) (ctx : P → Option P) (xs : List (P × P)) (r : Bool)
    (ctx' : P → Option P) : Prop where
  allows : r = true → ∀ σ, G.Allows ctx xs σ ↔ Extends σ ctx'
  dom : r = true → ∀ p, ctx' p ≠ none → G.Dom ctx xs p
  fails : r = false → ∀ σ, ¬ G.Allows ctx xs σ

variable {k : Nat} {r : Bool} {visited : List (P × P)}

lemma matchLoop_spec (hj : G.Justified s) (h : G.matchLoop k s = some (r, s')) :
    G.Decides s.ctx s.stack r s'.ctx ∧ (r = true → s'.stack = [] ∧ G.Justified s') := by
  induction k generalizing s with
  | zero => contradiction
  | succ k ih =>
    obtain ⟨stack, ctx, visited⟩ := s
    cases stack with
    | nil =>
      cases h
      exact ⟨⟨fun _ σ => and_iff_left (forall_mem_nil _), fun _ p hp => .inl hp, nofun⟩,
        fun _ => ⟨rfl, hj⟩⟩
    | cons x rest =>
      obtain ⟨a, b⟩ := x
      have hround := round_spec (s := ⟨rest, ctx, visited⟩) hj
      rw [matchLoop] at h
      dsimp only at h
      cases hr : G.round a b ⟨rest, ctx, visited⟩ with
      | none =>
        rw [hr] at h hround
        cases h
        exact ⟨⟨nofun, nofun, fun _ => hround⟩, nofun⟩
      | some s1 =>
        rw [hr] at h hround
        obtain ⟨hrest, hend⟩ := ih hround.justified h
        exact ⟨⟨fun ht σ => (hround.allows σ).trans (hrest.allows ht σ),
          fun ht p hp => hround.dom p (hrest.dom ht p hp),
          fun hf σ hσ => hrest.fails hf σ ((hround.allows σ).1 hσ)⟩, hend⟩

/-! ## Termination -/

def stackSize (G : ExprGraph P) (s : MatchState P) : Nat := (s.stack.map fun x => G.size x.1).sum

omit [DecidableEq P] in
lemma size_pos (a : P) : 0 < G.size a := by
  rw [size_eq]
  omega

lemma round_size (h : G.round a b s = some s') : G.stackSize s' < G.size a + G.stackSize s := by
  have hpos := G.size_pos a
  unfold round at h
  split at h
  · split at h
    · cases h
      omega
    · cases h
  split at h
  · cases h
    omega
  dsimp only at h
  split at h
  · split at h
    · split at h
      · cases h
        exact Nat.lt_add_of_pos_left hpos
      · split at h
        · cases h
        · cases h
          exact Nat.lt_add_of_pos_left hpos
    · cases h
  split at h
  · cases h
  rename_i heq
  cases h
  have hlen := not_not.1 (not_or.1 heq).1
  have hzip : ((G.children a).zip (G.children b)).map (fun x => G.size x.1) =
      (G.children a).map G.size := by
    conv_rhs => rw [← List.map_fst_zip hlen.le, List.map_map]
    rfl
  unfold stackSize
  rw [List.map_append, List.map_reverse, hzip, List.sum_append, List.sum_reverse, size_eq (a := a)]
  omega

lemma exists_matchLoop (s : MatchState P) : ∃ k r s', G.matchLoop k s = some (r, s') := by
  induction hn : G.stackSize s using Nat.strong_induction_on generalizing s with
  | _ n ih =>
    obtain ⟨stack, ctx, visited⟩ := s
    cases stack with
    | nil => exact ⟨1, true, _, rfl⟩
    | cons x rest =>
      obtain ⟨a, b⟩ := x
      cases hr : G.round a b ⟨rest, ctx, visited⟩ with
      | none =>
        refine ⟨1, false, ⟨rest, ctx, visited⟩, ?_⟩
        rw [matchLoop]
        dsimp only
        rw [hr]
      | some s1 =>
        have hlt := round_size hr
        obtain ⟨k, r, s', hk⟩ := ih _ (by rw [← hn]; exact hlt) s1 rfl
        refine ⟨k + 1, r, s', ?_⟩
        rw [matchLoop]
        dsimp only
        rw [hr]
        exact hk

/-- A result does not depend on the bound. -/
lemma matchLoop_mono {l : Nat} (hkl : k ≤ l)
    (h : G.matchLoop k s = some (r, s')) : G.matchLoop l s = some (r, s') := by
  induction k generalizing s l with
  | zero => contradiction
  | succ k ih =>
    obtain ⟨l, rfl⟩ : ∃ m, l = m + 1 := ⟨l - 1, by omega⟩
    rw [matchLoop] at h ⊢
    split at h
    · exact h
    split at h
    · exact h
    · exact ih (by omega) h

/-! ## Sequences of calls -/

/-- The pairs visited by earlier calls match already. -/
def Visited (G : ExprGraph P) (ctx : P → Option P) (visited : List (P × P)) : Prop :=
  ∀ σ, Extends σ ctx → ∀ p ∈ visited, G.Matched σ p

lemma match_spec (hv : G.Visited ctx visited) (h : G.match k a b ctx visited = some (r, s')) :
    G.Decides ctx [(a, b)] r s'.ctx ∧ (r = true → G.Visited s'.ctx s'.visited) := by
  obtain ⟨hd, hend⟩ := matchLoop_spec (fun σ hσ p hp _ => hv σ hσ p hp) h
  refine ⟨hd, fun hr σ hσ p hp => ?_⟩
  obtain ⟨hnil, hj⟩ := hend hr
  exact hj σ hσ p hp (hnil ▸ forall_mem_nil _)

lemma matchArgs_spec {keep : Bool}
    (hv : G.Visited ctx visited) (h : G.matchArgs keep k xs ctx visited = some (r, ctx')) :
    G.Decides ctx xs r ctx' := by
  induction xs generalizing ctx visited with
  | nil =>
    cases h
    exact ⟨fun _ σ => and_iff_left (forall_mem_nil _), fun _ p hp => .inl hp, nofun⟩
  | cons x rest ih =>
    obtain ⟨a, b⟩ := x
    obtain ⟨⟨r1, s1⟩, hmatch, h⟩ := bind_inv h
    obtain ⟨hd, hv1⟩ := match_spec hv hmatch
    have hcons : ∀ σ, G.Allows ctx ((a, b) :: rest) σ ↔
        G.Allows ctx [(a, b)] σ ∧ ∀ x ∈ rest, G.Matched σ x := by
      intro σ
      unfold Allows
      rw [forall_mem_cons, List.forall_mem_singleton, and_assoc]
    cases r1 with
    | false =>
      cases h
      exact ⟨nofun, nofun, fun _ σ hσ => hd.fails rfl σ ((hcons σ).1 hσ).1⟩
    | true =>
      have hv' : G.Visited s1.ctx (if keep then s1.visited else []) := by
        cases keep with
        | false => exact fun _ _ => forall_mem_nil _
        | true => exact hv1 rfl
      have hrest := ih hv' h
      have hiff : ∀ σ, G.Allows ctx ((a, b) :: rest) σ ↔ G.Allows s1.ctx rest σ :=
        fun σ => (hcons σ).trans (and_congr_left fun _ => hd.allows rfl σ)
      refine ⟨fun ht σ => (hiff σ).trans (hrest.allows ht σ), fun ht p hp => ?_,
        fun hf σ hσ => hrest.fails hf σ ((hiff σ).1 hσ)⟩
      rcases hrest.dom ht p hp with hp | ⟨x, hx, hp⟩
      · rcases hd.dom rfl p hp with hp | ⟨x, hx, hp⟩
        · exact .inl hp
        · exact .inr ⟨x, List.mem_cons.2 (.inl (List.mem_singleton.1 hx)), hp⟩
      · exact .inr ⟨x, .tail _ hx, hp⟩

lemma matchArgs_mono {keep : Bool} {l : Nat} (hkl : k ≤ l)
    (h : G.matchArgs keep k xs ctx visited = some (r, ctx')) :
    G.matchArgs keep l xs ctx visited = some (r, ctx') := by
  induction xs generalizing ctx visited with
  | nil => exact h
  | cons x rest ih =>
    obtain ⟨⟨r1, s1⟩, hmatch, h⟩ := bind_inv h
    refine Option.bind_eq_some_iff.2 ⟨_, matchLoop_mono hkl hmatch, ?_⟩
    cases r1 with
    | false => exact h
    | true => exact ih h

lemma exists_matchArgs (keep : Bool) (xs : List (P × P)) (ctx : P → Option P)
    (visited : List (P × P)) : ∃ k r ctx', G.matchArgs keep k xs ctx visited = some (r, ctx') := by
  induction xs generalizing ctx visited with
  | nil => exact ⟨0, true, ctx, rfl⟩
  | cons x rest ih =>
    obtain ⟨k, r, s', hk⟩ := G.exists_matchLoop ⟨[x], ctx, visited⟩
    obtain ⟨l, r', ctx', hl⟩ := ih s'.ctx (if keep then s'.visited else [])
    cases r with
    | false => exact ⟨k, false, s'.ctx, Option.bind_eq_some_iff.2 ⟨_, hk, rfl⟩⟩
    | true =>
      exact ⟨max k l, r', ctx', Option.bind_eq_some_iff.2
        ⟨_, matchLoop_mono (le_max_left k l) hk, matchArgs_mono (le_max_right k l) hl⟩⟩

omit [DecidableEq P] in
lemma Decides.answers (h : G.Decides ctx xs r ctx') : G.Answers ctx xs r ctx' := by
  have hself : Extends ctx' ctx' := fun _ _ hp => hp
  have hallows : ∀ {σ}, (∀ x ∈ xs, G.NoAny x.1) → G.Solution ctx xs σ → G.Allows ctx xs σ :=
    fun hno hσ => ⟨hσ.extend, fun x hx => ⟨hσ.applied x hx, hno x hx⟩⟩
  cases r with
  | false =>
    refine ⟨iff_of_false Bool.false_ne_true ?_, nofun⟩
    rintro ⟨hno, σ, hσ⟩
    exact h.fails rfl σ (hallows hno hσ)
  | true =>
    obtain ⟨hext, hmatched⟩ := (h.allows rfl ctx').2 hself
    have hno : ∀ x ∈ xs, G.NoAny x.1 := fun x hx => (hmatched x hx).2
    have hdom : ∀ p, ctx' p ≠ none ↔ ctx p ≠ none ∨ ∃ x ∈ xs, G.ParamOf p x.1 := by
      refine fun p => ⟨h.dom rfl p, ?_⟩
      rintro (hp | ⟨x, hx, hp⟩)
      · obtain ⟨c, hc⟩ := Option.ne_none_iff_exists'.1 hp
        rw [hext p c hc]
        exact Option.some_ne_none c
      · exact (hmatched x hx).1.dom hp
    have hsol : G.Solution ctx xs ctx' := ⟨hext, hdom, fun x hx => (hmatched x hx).1⟩
    refine ⟨iff_of_true rfl ⟨hno, ctx', hsol⟩, fun _ σ => ⟨fun hσ => ?_, fun heq => heq ▸ hsol⟩⟩
    have hσext := (h.allows rfl σ).1 (hallows hno hσ)
    funext p
    cases hp : ctx' p with
    | some c => exact hσext p c hp
    | none =>
      by_contra hne
      exact (hdom p).2 ((hσ.dom p).1 hne) hp

omit [DecidableEq P] in
/-- Two results for the same substitutions are the same. -/
lemma Decides.congr {ys : List (P × P)} {r' : Bool} {c c' : P → Option P}
    (h : G.Decides ctx xs r c) (h' : G.Decides ctx ys r' c')
    (hiff : ∀ σ, G.Allows ctx xs σ ↔ G.Allows ctx ys σ) :
    r' = r ∧ (r = true → c' = c) := by
  have hself : ∀ c : P → Option P, Extends c c := fun _ _ _ hp => hp
  cases r with
  | false =>
    refine ⟨?_, nofun⟩
    cases r' with
    | false => rfl
    | true => exact absurd ((hiff c').2 ((h'.allows rfl c').2 (hself c'))) (h.fails rfl c')
  | true =>
    have hc := (h.allows rfl c).2 (hself c)
    cases r' with
    | false => exact absurd ((hiff c).1 hc) (h'.fails rfl c)
    | true =>
      have hcc' : ∀ σ, Extends σ c ↔ Extends σ c' := fun σ =>
        (h.allows rfl σ).symm.trans ((hiff σ).trans (h'.allows rfl σ))
      refine ⟨rfl, fun _ => funext fun p => Option.ext fun d => ?_⟩
      exact ⟨fun hd => (hcc' c).1 (hself c) p d hd, fun hd => (hcc' c').2 (hself c') p d hd⟩

/-- Matching ends, for a pair and for a sequence of calls; its answer is the one substitution that
solves the pairs, where `ANY` is not in the patterns; and a sequence of calls has the result of the
call for the expressions that have its terms as their children. -/
theorem match_correct (G : ExprGraph P) (ctx : P → Option P) :
    (∀ a b, (∃ k r s', G.match k a b ctx [] = some (r, s')) ∧
      ∀ k r s', G.match k a b ctx [] = some (r, s') → G.Answers ctx [(a, b)] r s'.ctx) ∧
    (∀ keep xs, (∃ k r ctx', G.matchArgs keep k xs ctx [] = some (r, ctx')) ∧
      ∀ k r ctx', G.matchArgs keep k xs ctx [] = some (r, ctx') → G.Answers ctx xs r ctx') ∧
    ∀ keep a b k k' r r' s' ctx', G.children a ≠ [] → G.kind b = G.kind a →
      (G.children a).length = (G.children b).length → G.match k a b ctx [] = some (r, s') →
      G.matchArgs keep k' ((G.children a).zip (G.children b)) ctx [] = some (r', ctx') →
      r' = r ∧ (r = true → ctx' = s'.ctx) := by
  have hnone : G.Visited ctx [] := fun _ _ => forall_mem_nil _
  refine ⟨fun a b => ⟨G.exists_matchLoop _, fun k r s' h => (match_spec hnone h).1.answers⟩,
    fun keep xs => ⟨G.exists_matchArgs keep xs ctx [], fun k r ctx' h =>
      (matchArgs_spec hnone h).answers⟩, ?_⟩
  intro keep a b k k' r r' s' ctx' hc hk hlen hmatch hargs
  refine (match_spec hnone hmatch).1.congr (matchArgs_spec hnone hargs)
    fun σ => and_congr_right fun _ => ?_
  rw [List.forall_mem_singleton, matched_node hc, and_iff_right hk, and_iff_right hlen]

/-- The graph with `ANY` alone. -/
def anyGraph : ExprGraph Unit where
  kind _ := .any
  children _ := []
  rank _ := 0
  rank_lt h := absurd h not_mem_nil
  shared h := absurd rfl h

/-- `ANY` does not match itself, although the empty substitution leaves it as it is. -/
theorem match_any_fails :
    ¬ ∀ (ctx : Unit → Option Unit) (k : Nat) (r : Bool) (s' : MatchState Unit),
      anyGraph.match k () () ctx [] = some (r, s') →
        (r = true ↔ ∃ σ, anyGraph.Solution ctx [((), ())] σ) := by
  intro h
  have hground : ¬ anyGraph.isGround () = true := fun hg => ((isGround_leaf rfl).1 hg).2 rfl
  have hround : anyGraph.round () () ⟨[], fun _ => none, []⟩ = none := by
    rw [round, if_neg hground]
    rfl
  have hmatch : anyGraph.match 1 () () (fun _ => none) [] =
      some (false, ⟨[], fun _ => none, []⟩) := by
    rw [ExprGraph.match, matchLoop]
    dsimp only
    rw [hround]
  refine absurd ((h _ _ _ _ hmatch).2 ⟨fun _ => none, ?_⟩) Bool.false_ne_true
  refine ⟨fun _ _ hp => hp, fun p => ⟨.inl, ?_⟩, ?_⟩
  · rintro (hp | ⟨x, -, -, hk, -⟩)
    · exact hp
    · contradiction
  · rw [List.forall_mem_singleton]
    exact .leaf rfl nofun

end ExprGraph

end EthosCpc
