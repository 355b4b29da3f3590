import EthosCpc.Cvc5.ProofNodeAlgorithm
import Mathlib.Tactic.Tauto
import EthosCpc.Library.Inversion

/-!
# Free assumptions of a proof

`getFreeAssumptionsMap` of `proof/proof_node_algorithm.cpp`: the leaves of a
proof that no `SCOPE` above them closes, by their formula.  The traversal of a
`SCOPE` is a call of its own, with its own set of visited nodes.

Proof nodes live on a heap, numbered in the order of their creation, and may be
shared.
-/

namespace EthosCpc.Cvc5.ProofNodes

open Relation
open Option (bind_eq_some_iff)
open List (mem_cons_of_mem mem_cons_self mem_singleton mem_singleton_self)

/-- Proof nodes on a heap. -/
structure Heap (F : Type) where
  size : Nat
  node : Nat → ProofNode F

/-- `std::map` from formulas to proof nodes, in the order of its keys. -/
abbrev AMap (F : Type) := List (F × List Nat)

variable {F : Type}

section Loop

variable [DecidableEq F]

/-- The nodes `ns` are appended to the entry of `f`. -/
def AMap.push (lt : F → F → Bool) (f : F) (ns : List Nat) : AMap F → AMap F
  | [] => [(f, ns)]
  | (g, ms) :: amap =>
    if f = g then (g, ms ++ ns) :: amap
    else if lt f g then (f, ns) :: (g, ms) :: amap
    else (g, ms) :: AMap.push lt f ns amap

/-- The entries of `amapTmp` that the arguments of a `SCOPE` do not close. -/
def AMap.pushOpen (lt : F → F → Bool) (cargs : List F) (amap amapTmp : AMap F) : AMap F :=
  amapTmp.foldl (fun amap a => if a.1 ∈ cargs then amap else amap.push lt a.1 a.2) amap

/-- The loop of `getFreeAssumptionsMap`.  The first node of `visit` is the top of the stack. -/
def freeLoop (lt : F → F → Bool) (h : Heap F) :
    Nat → List Nat → List Nat → AMap F → Option (AMap F)
  | 0, _, _, _ => none
  | _ + 1, _, [], amap => some amap
  | k + 1, visited, cur :: visit, amap =>
    if cur ∈ visited then freeLoop lt h k visited visit amap
    else if (h.node cur).rule = .assume then
      freeLoop lt h k (cur :: visited) visit (amap.push lt (h.node cur).assumed [cur])
    else if (h.node cur).rule = .scope then do
      let c ← (h.node cur).children.head?
      let amapTmp ← freeLoop lt h k [] [c] []
      freeLoop lt h k (cur :: visited) visit (amap.pushOpen lt (h.node cur).args amapTmp)
    else freeLoop lt h k (cur :: visited) ((h.node cur).children.reverse ++ visit) amap

/-- `getFreeAssumptionsMap`, with a bound on the number of rounds. -/
def getFreeAssumptionsMap (lt : F → F → Bool) (h : Heap F) (k pn : Nat) : Option (AMap F) :=
  freeLoop lt h k [] [pn] []

end Loop

namespace Heap

variable (h : Heap F)

/-- What proofs are made of: an assumption has no children and proves its argument, and a `SCOPE`
has one child. -/
structure Wf : Prop where
  assume : ∀ n, (h.node n).rule = .assume →
    (h.node n).children = [] ∧ (h.node n).args = [(h.node n).proven]
  scope : ∀ n, (h.node n).rule = .scope → ∃ c, (h.node n).children = [c]
  lt : ∀ n < h.size, ∀ c ∈ (h.node n).children, c < h.size

/-- The heap has no cycles. -/
def Acyclic : Prop := ∃ rank : Nat → Nat, ∀ n, ∀ c ∈ (h.node n).children, rank c < rank n

/-- The node is an assumption of `f`. -/
def Leaf (n : Nat) (f : F) : Prop := (h.node n).rule = .assume ∧ (h.node n).assumed = f

/-- Below `n`, and not closed by it as far as `f` is concerned. -/
def OpenEdge (f : F) (n m : Nat) : Prop :=
  m ∈ (h.node n).children ∧ ¬ ((h.node n).rule = .scope ∧ f ∈ (h.node n).args)

/-- A path on which no `SCOPE` closes `f`. -/
def OpenPath (f : F) : Nat → Nat → Prop := ReflTransGen (h.OpenEdge f)

/-- The leaf `n` is a free occurrence of the assumption `f` below `root`. -/
def FreeAt (root : Nat) (f : F) (n : Nat) : Prop := h.OpenPath f root n ∧ h.Leaf n f

/-- `f` is a free assumption of the proof `root`. -/
def Free (root : Nat) (f : F) : Prop := ∃ n, h.FreeAt root f n

end Heap

/-! ## The map -/

namespace AMap

/-- The node stands in an entry of the formula. -/
def Has (amap : AMap F) (f : F) (n : Nat) : Prop := ∃ ns, (f, ns) ∈ amap ∧ n ∈ ns

/-- No entry is empty. -/
def Filled (amap : AMap F) : Prop := ∀ e ∈ amap, e.2 ≠ []

variable {n : Nat}

variable {f : F}

lemma has_nil : ¬ Has [] f n := by
  rintro ⟨ns, hmem, -⟩
  cases hmem

variable {amap : AMap F}

variable {g : F}

lemma has_cons {ms : List Nat} : Has ((g, ms) :: amap) f n ↔ (f = g ∧ n ∈ ms) ∨ Has amap f n := by
  constructor
  · rintro ⟨ns, hmem, hn⟩
    cases hmem with
    | head => exact .inl ⟨rfl, hn⟩
    | tail _ hmem => exact .inr ⟨ns, hmem, hn⟩
  intro h
  cases h with
  | inl h => exact ⟨ms, h.1 ▸ mem_cons_self, h.2⟩
  | inr h =>
    obtain ⟨ns, hmem, hn⟩ := h
    exact ⟨ns, .tail _ hmem, hn⟩

variable [DecidableEq F] {lt : F → F → Bool}

lemma has_push {ns : List Nat} : Has (amap.push lt f ns) g n ↔ Has amap g n ∨ (g = f ∧ n ∈ ns) := by
  induction amap with
  | nil => rw [push, has_cons, or_comm]
  | cons e amap ih =>
    obtain ⟨e, ms⟩ := e
    rw [push]
    split
    · rename_i heq
      subst heq
      rw [has_cons, has_cons, List.mem_append]
      tauto
    split
    · rw [has_cons, or_comm]
    · rw [has_cons, has_cons, ih, or_assoc]

lemma filled_push {ns : List Nat} (h : amap.Filled) (hns : ns ≠ []) :
    (amap.push lt f ns).Filled := by
  induction amap with
  | nil =>
    intro e he
    cases mem_singleton.1 he
    exact hns
  | cons e amap ih =>
    obtain ⟨e, ms⟩ := e
    have htail : Filled amap := fun e he => h e (.tail _ he)
    have hhead : ms ≠ [] := h (e, ms) (.head _)
    rw [push]
    split
    · intro e he
      cases he with
      | head => exact List.append_ne_nil_of_left_ne_nil hhead ns
      | tail _ he => exact htail e he
    split
    · intro e he
      cases he with
      | head => exact hns
      | tail _ he => exact h e he
    intro e he
    cases he with
    | head => exact hhead
    | tail _ he => exact ih htail e he

lemma has_pushOpen {cargs : List F} {amap amapTmp : AMap F} :
    Has (pushOpen lt cargs amap amapTmp) g n ↔ Has amap g n ∨ (g ∉ cargs ∧ Has amapTmp g n) := by
  induction amapTmp generalizing amap with
  | nil => exact ⟨.inl, fun h => h.resolve_right fun h => has_nil h.2⟩
  | cons e amapTmp ih =>
    obtain ⟨f, ns⟩ := e
    refine ih.trans ?_
    rw [has_cons]
    dsimp only
    by_cases hf : f ∈ cargs
    · rw [if_pos hf]
      have hne : g ∉ cargs → g ≠ f := fun hg heq => hg (heq ▸ hf)
      tauto
    rw [if_neg hf, has_push]
    have hne : g = f → g ∉ cargs := fun heq => heq ▸ hf
    tauto

lemma filled_pushOpen {cargs : List F} {amap amapTmp : AMap F} (h : amap.Filled)
    (htmp : amapTmp.Filled) : (pushOpen lt cargs amap amapTmp).Filled := by
  induction amapTmp generalizing amap with
  | nil => exact h
  | cons e amapTmp ih =>
    refine ih ?_ fun e he => htmp e (.tail _ he)
    dsimp only
    split
    · exact h
    · exact filled_push h (htmp e (.head _))

end AMap

/-! ## The traversal -/

section Traversal

variable {h : Heap F} {root : Nat}

/-- What has been done about a visited node. -/
structure Visited (h : Heap F) (visited visit : List Nat) (amap : AMap F) (v : Nat) : Prop where
  assume : (h.node v).rule = .assume → amap.Has (h.node v).assumed v
  scope : (h.node v).rule = .scope → ∀ c ∈ (h.node v).children, ∀ f n,
    f ∉ (h.node v).args → h.FreeAt c f n → amap.Has f n
  inner : (h.node v).rule ≠ .assume → (h.node v).rule ≠ .scope →
    ∀ c ∈ (h.node v).children, c ∈ visited ∨ c ∈ visit

/-- The invariant of the loop. -/
structure LoopOk (h : Heap F) (root : Nat) (visited visit : List Nat) (amap : AMap F) : Prop where
  reached : ∀ v ∈ visit, ∀ f, h.OpenPath f root v
  sound : ∀ f n, amap.Has f n → h.FreeAt root f n
  root : root ∈ visited ∨ root ∈ visit
  visited : ∀ v ∈ visited, Visited h visited visit amap v
  filled : amap.Filled

lemma Visited.mono {visited visited' visit visit' : List Nat} {amap amap' : AMap F} {v : Nat}
    (hv : Visited h visited visit amap v)
    (hvisit : ∀ c, c ∈ visited ∨ c ∈ visit → c ∈ visited' ∨ c ∈ visit')
    (hamap : ∀ f n, amap.Has f n → amap'.Has f n) : Visited h visited' visit' amap' v where
  assume hr := hamap _ _ (hv.assume hr)
  scope hr c hc f n hf hn := hamap _ _ (hv.scope hr c hc f n hf hn)
  inner hr hr' c hc := hvisit c (hv.inner hr hr' c hc)

variable {f : F} {n : Nat}

lemma LoopOk.complete {visited : List Nat} {amap : AMap F} (hok : LoopOk h root visited [] amap)
    (hwf : h.Wf) (hn : h.FreeAt root f n) : amap.Has f n := by
  obtain ⟨hpath, hleaf⟩ := hn
  have hstart : root ∈ visited := hok.root.resolve_right List.not_mem_nil
  have hvisited := hok.visited
  clear hok
  induction hpath using ReflTransGen.head_induction_on with
  | refl => exact hleaf.2 ▸ (hvisited _ hstart).assume hleaf.1
  | @head v c hedge hrest ih =>
    have hdone := hvisited v hstart
    by_cases hassume : (h.node v).rule = .assume
    · have hnone := hedge.1
      rw [(hwf.assume v hassume).1] at hnone
      cases hnone
    by_cases hscope : (h.node v).rule = .scope
    · exact hdone.scope hscope c hedge.1 f n (fun hf => hedge.2 ⟨hscope, hf⟩) ⟨hrest, hleaf⟩
    · exact ih ((hdone.inner hassume hscope c hedge.1).resolve_right List.not_mem_nil)

lemma Heap.freeAt_congr {h' : Heap F} {P : Nat → Prop} (hnode : ∀ v, P v → h'.node v = h.node v)
    (hP : ∀ v, P v → ∀ c ∈ (h.node v).children, P c) (hroot : P root) :
    h'.FreeAt root f n ↔ h.FreeAt root f n := by
  have hleaf : P n → (h'.Leaf n f ↔ h.Leaf n f) := by
    intro hn
    unfold Heap.Leaf
    rw [hnode n hn]
  have hedge : ∀ v c, P v → (h'.OpenEdge f v c ↔ h.OpenEdge f v c) := by
    intro v c hv
    unfold Heap.OpenEdge
    rw [hnode v hv]
  constructor
  · rintro ⟨hpath, hn⟩
    have hboth : h.OpenPath f root n ∧ P n := by
      clear hn hleaf
      induction hpath with
      | refl => exact ⟨.refl, hroot⟩
      | tail _ he ih =>
        have he := (hedge _ _ ih.2).1 he
        exact ⟨.tail ih.1 he, hP _ ih.2 _ he.1⟩
    exact ⟨hboth.1, (hleaf hboth.2).1 hn⟩
  · rintro ⟨hpath, hn⟩
    have hboth : h'.OpenPath f root n ∧ P n := by
      clear hn hleaf
      induction hpath with
      | refl => exact ⟨.refl, hroot⟩
      | tail _ he ih => exact ⟨.tail ih.1 ((hedge _ _ ih.2).2 he), hP _ ih.2 _ he.1⟩
    exact ⟨hboth.1, (hleaf hboth.2).2 hn⟩

lemma Heap.free_scope {c : Nat} (hr : (h.node root).rule = .scope)
    (hc : (h.node root).children = [c]) :
    h.Free root f ↔ f ∉ (h.node root).args ∧ h.Free c f := by
  constructor
  · rintro ⟨n, hpath, hleaf⟩
    cases ReflTransGen.cases_head hpath with
    | inl heq =>
      subst heq
      cases hr.symm.trans hleaf.1
    | inr hnext =>
      obtain ⟨d, hedge, hrest⟩ := hnext
      have hd := hedge.1
      rw [hc, mem_singleton] at hd
      subst hd
      exact ⟨fun hf => hedge.2 ⟨hr, hf⟩, n, hrest, hleaf⟩
  · rintro ⟨hf, n, hpath, hleaf⟩
    exact ⟨n, .head ⟨hc ▸ mem_singleton_self c, fun hclosed => hf hclosed.2⟩ hpath, hleaf⟩

lemma Heap.OpenPath.tail {m : Nat} (hp : h.OpenPath f root n) (he : h.OpenEdge f n m) :
    h.OpenPath f root m := ReflTransGen.tail hp he

variable {visited visit : List Nat} {amap : AMap F} {cur : Nat}

lemma LoopOk.skip (hok : LoopOk h root visited (cur :: visit) amap) (hcur : cur ∈ visited) :
    LoopOk h root visited visit amap := by
  have hmove : ∀ c, c ∈ visited ∨ c ∈ cur :: visit → c ∈ visited ∨ c ∈ visit := by
    intro c hc
    cases hc with
    | inl hc => exact .inl hc
    | inr hc =>
      cases hc with
      | head => exact .inl hcur
      | tail _ hc => exact .inr hc
  exact {
    reached := fun v hv => hok.reached v (.tail _ hv)
    sound := hok.sound
    root := hmove root hok.root
    visited := fun v hv => (hok.visited v hv).mono hmove fun _ _ => id
    filled := hok.filled }

lemma LoopOk.mark {visit' : List Nat} {amap' : AMap F}
    (hok : LoopOk h root visited (cur :: visit) amap)
    (hreached : ∀ v ∈ visit', ∀ f, h.OpenPath f root v)
    (hsound : ∀ f n, amap'.Has f n → h.FreeAt root f n)
    (hvisit : ∀ v ∈ visit, v ∈ visit') (hamap : ∀ f n, amap.Has f n → amap'.Has f n)
    (hcur : Visited h (cur :: visited) visit' amap' cur) (hfilled : amap'.Filled) :
    LoopOk h root (cur :: visited) visit' amap' := by
  have hmove : ∀ c, c ∈ visited ∨ c ∈ cur :: visit → c ∈ cur :: visited ∨ c ∈ visit' := by
    intro c hc
    cases hc with
    | inl hc => exact .inl (.tail _ hc)
    | inr hc =>
      cases hc with
      | head => exact .inl (.head _)
      | tail _ hc => exact .inr (hvisit c hc)
  refine ⟨hreached, hsound, hmove root hok.root, ?_, hfilled⟩
  intro v hv
  cases hv with
  | head => exact hcur
  | tail _ hv => exact (hok.visited v hv).mono hmove hamap

lemma loopOk_start (root : Nat) : LoopOk h root [] [root] ([] : AMap F) where
  reached v hv f := by
    cases mem_singleton.1 hv
    exact .refl
  sound f n hn := absurd hn AMap.has_nil
  root := .inr (mem_singleton_self root)
  visited v hv := by cases hv
  filled e he := by cases he

lemma LoopOk.inner (hok : LoopOk h root visited (cur :: visit) amap)
    (hassume : (h.node cur).rule ≠ .assume) (hscope : (h.node cur).rule ≠ .scope) :
    LoopOk h root (cur :: visited) ((h.node cur).children.reverse ++ visit) amap := by
  have hpath := hok.reached cur (.head _)
  refine hok.mark ?_ hok.sound (fun v hv => List.mem_append_right _ hv) (fun _ _ => id)
    ⟨fun h => absurd h hassume, fun h => absurd h hscope, ?_⟩ hok.filled
  · intro v hv f
    cases List.mem_append.1 hv with
    | inl hv => exact (hpath f).tail ⟨List.mem_reverse.1 hv, fun hclosed => hscope hclosed.1⟩
    | inr hv => exact hok.reached v (.tail _ hv) f
  · exact fun _ _ c hc => .inr (List.mem_append_left _ (List.mem_reverse.2 hc))

variable [DecidableEq F] {lt : F → F → Bool}

lemma LoopOk.assume (hok : LoopOk h root visited (cur :: visit) amap)
    (hr : (h.node cur).rule = .assume) :
    LoopOk h root (cur :: visited) visit (amap.push lt (h.node cur).assumed [cur]) := by
  have hpath := hok.reached cur (.head _)
  refine hok.mark (fun v hv => hok.reached v (.tail _ hv)) ?_ (fun _ => id)
    (fun f n hn => AMap.has_push.2 (.inl hn)) ⟨?_, ?_, ?_⟩
    (AMap.filled_push hok.filled (List.cons_ne_nil _ _))
  · intro f n hn
    cases AMap.has_push.1 hn with
    | inl hn => exact hok.sound f n hn
    | inr hn =>
      obtain ⟨rfl, hmem⟩ := hn
      cases mem_singleton.1 hmem
      exact ⟨hpath _, hr, rfl⟩
  · exact fun _ => AMap.has_push.2 (.inr ⟨rfl, mem_singleton_self cur⟩)
  · intro hscope
    rw [hr] at hscope
    cases hscope
  · exact fun hne => absurd hr hne

lemma LoopOk.scope {c : Nat} {amapTmp : AMap F}
    (hok : LoopOk h root visited (cur :: visit) amap) (hr : (h.node cur).rule = .scope)
    (hc : (h.node cur).children = [c]) (htmp : ∀ f n, amapTmp.Has f n ↔ h.FreeAt c f n)
    (hfilled : amapTmp.Filled) :
    LoopOk h root (cur :: visited) visit (amap.pushOpen lt (h.node cur).args amapTmp) := by
  have hpath := hok.reached cur (.head _)
  have hmem : c ∈ (h.node cur).children := hc ▸ mem_singleton_self c
  refine hok.mark (fun v hv => hok.reached v (.tail _ hv)) ?_ (fun _ => id)
    (fun f n hn => AMap.has_pushOpen.2 (.inl hn)) ⟨?_, ?_, ?_⟩
    (AMap.filled_pushOpen hok.filled hfilled)
  · intro f n hn
    cases AMap.has_pushOpen.1 hn with
    | inl hn => exact hok.sound f n hn
    | inr hn =>
      obtain ⟨hf, hn⟩ := hn
      obtain ⟨hrest, hleaf⟩ := (htmp f n).1 hn
      exact ⟨((hpath f).tail ⟨hmem, fun hclosed => hf hclosed.2⟩).trans hrest, hleaf⟩
  · intro hassume
    rw [hr] at hassume
    cases hassume
  · intro _ d hd f n hf hn
    rw [hc, mem_singleton] at hd
    subst hd
    exact AMap.has_pushOpen.2 (.inr ⟨hf, (htmp f n).2 hn⟩)
  · exact fun _ hne => absurd hr hne

/-- The map of the free assumptions. -/
structure MapOk (h : Heap F) (root : Nat) (amap : AMap F) : Prop where
  has_iff : ∀ f n, amap.Has f n ↔ h.FreeAt root f n
  filled : amap.Filled

omit [DecidableEq F] in
lemma MapOk.exists_key {amap : AMap F} (hmap : MapOk h root amap) {P : F → Prop} :
    (∃ e ∈ amap, P e.1) ↔ ∃ f, h.Free root f ∧ P f := by
  constructor
  · rintro ⟨e, he, hp⟩
    obtain ⟨n, hn⟩ := List.exists_mem_of_ne_nil e.2 (hmap.filled e he)
    exact ⟨e.1, ⟨n, (hmap.has_iff e.1 n).1 ⟨e.2, he, hn⟩⟩, hp⟩
  rintro ⟨f, ⟨n, hn⟩, hp⟩
  obtain ⟨ns, hmem, _⟩ := (hmap.has_iff f n).2 hn
  exact ⟨(f, ns), hmem, hp⟩

variable {res : AMap F}

variable {k : Nat}

lemma freeLoop_ok (hwf : h.Wf) (hres : freeLoop lt h k visited visit amap = some res)
    (hok : LoopOk h root visited visit amap) : MapOk h root res := by
  induction k generalizing root visited visit amap res with
  | zero => cases hres
  | succ k ih =>
    cases visit with
    | nil =>
      cases hres
      exact ⟨fun f n => ⟨hok.sound f n, hok.complete hwf⟩, hok.filled⟩
    | cons cur visit =>
      rw [freeLoop] at hres
      split at hres
      · exact ih hres (hok.skip ‹_›)
      split at hres
      · exact ih hres (hok.assume ‹_›)
      rename_i hassume
      split at hres
      · rename_i hscope
        obtain ⟨c, hc⟩ := hwf.scope cur hscope
        rw [hc] at hres
        obtain ⟨d, hd, hres⟩ := bind_inv hres
        cases hd
        obtain ⟨amapTmp, htmp, hres⟩ := bind_inv hres
        have hmap := ih htmp (loopOk_start c)
        exact ih hres (hok.scope hscope hc hmap.has_iff hmap.filled)
      · exact ih hres (hok.inner hassume ‹_›)

lemma getFreeAssumptionsMap_ok (hwf : h.Wf)
    (hres : getFreeAssumptionsMap lt h k root = some res) : MapOk h root res :=
  freeLoop_ok hwf hres (loopOk_start root)

/-! ## The end of the traversal -/

lemma freeLoop_succ (hres : freeLoop lt h k visited visit amap = some res) :
    freeLoop lt h (k + 1) visited visit amap = some res := by
  induction k generalizing visited visit amap res with
  | zero => cases hres
  | succ k ih =>
    cases visit with
    | nil => exact hres
    | cons cur visit =>
      rw [freeLoop] at hres ⊢
      split at hres
      · rw [if_pos ‹_›]
        exact ih hres
      rw [if_neg ‹_›]
      split at hres
      · rw [if_pos ‹_›]
        exact ih hres
      rw [if_neg ‹_›]
      split at hres
      · rw [if_pos ‹_›]
        obtain ⟨c, hc, hres⟩ := bind_inv hres
        obtain ⟨amapTmp, htmp, hres⟩ := bind_inv hres
        refine bind_eq_some_iff.2 ⟨c, hc, ?_⟩
        exact bind_eq_some_iff.2 ⟨amapTmp, ih htmp, ih hres⟩
      · rw [if_neg ‹_›]
        exact ih hres

lemma freeLoop_mono {k' : Nat} (hle : k ≤ k')
    (hres : freeLoop lt h k visited visit amap = some res) :
    freeLoop lt h k' visited visit amap = some res := by
  induction hle with
  | refl => exact hres
  | step _ ih => exact freeLoop_succ ih

/-- The loop ends from every such state. -/
def Ends (lt : F → F → Bool) (h : Heap F) (visit : List Nat) : Prop :=
  ∀ visited amap, ∃ k res, freeLoop lt h k visited visit amap = some res

lemma ends_append {cs : List Nat} (hcs : ∀ c ∈ cs, ∀ rest, Ends lt h rest → Ends lt h (c :: rest))
    (hvisit : Ends lt h visit) : Ends lt h (cs ++ visit) := by
  induction cs with
  | nil => exact hvisit
  | cons c cs ih => exact hcs c mem_cons_self _ (ih fun d hd => hcs d (mem_cons_of_mem c hd))

lemma ends_cons (hwf : h.Wf) {rank : Nat → Nat}
    (hrank : ∀ n, ∀ c ∈ (h.node n).children, rank c < rank n) (hvisit : Ends lt h visit) :
    Ends lt h (cur :: visit) := by
  induction hr : rank cur using Nat.strongRecOn generalizing cur visit with
  | _ r ih =>
    subst hr
    intro visited amap
    by_cases hcur : cur ∈ visited
    · obtain ⟨k, res, hres⟩ := hvisit visited amap
      exact ⟨k + 1, res, by rw [freeLoop, if_pos hcur, hres]⟩
    by_cases hassume : (h.node cur).rule = .assume
    · obtain ⟨k, res, hres⟩ :=
        hvisit (cur :: visited) (amap.push lt (h.node cur).assumed [cur])
      exact ⟨k + 1, res, by rw [freeLoop, if_neg hcur, if_pos hassume, hres]⟩
    by_cases hscope : (h.node cur).rule = .scope
    · obtain ⟨c, hc⟩ := hwf.scope cur hscope
      have hlt := hrank cur c (hc ▸ mem_singleton_self c)
      have hnil : Ends lt h [] := fun _ amap => ⟨1, amap, rfl⟩
      obtain ⟨k₁, amapTmp, htmp⟩ := ih (rank c) hlt hnil rfl [] []
      obtain ⟨k₂, res, hres⟩ :=
        hvisit (cur :: visited) (amap.pushOpen lt (h.node cur).args amapTmp)
      refine ⟨max k₁ k₂ + 1, res, ?_⟩
      rw [freeLoop, if_neg hcur, if_neg hassume, if_pos hscope, hc]
      refine bind_eq_some_iff.2 ⟨c, rfl, bind_eq_some_iff.2 ⟨amapTmp, ?_, ?_⟩⟩
      · exact freeLoop_mono (Nat.le_max_left k₁ k₂) htmp
      · exact freeLoop_mono (Nat.le_max_right k₁ k₂) hres
    have hchildren : Ends lt h ((h.node cur).children.reverse ++ visit) :=
      ends_append (fun c hc rest hrest =>
        ih (rank c) (hrank cur c (List.mem_reverse.1 hc)) hrest rfl) hvisit
    obtain ⟨k, res, hres⟩ := hchildren (cur :: visited) amap
    refine ⟨k + 1, res, ?_⟩
    rw [freeLoop, if_neg hcur, if_neg hassume, if_neg hscope, hres]

lemma getFreeAssumptionsMap_returns (hwf : h.Wf) (hacyclic : h.Acyclic) :
    ∃ k res, getFreeAssumptionsMap lt h k root = some res := by
  obtain ⟨rank, hrank⟩ := hacyclic
  exact ends_cons hwf hrank (fun _ amap => ⟨1, amap, rfl⟩) [] []

end Traversal

end EthosCpc.Cvc5.ProofNodes
