import EthosCpc.Cvc5.CnfStream
import Mathlib.Data.List.Basic

/-!
# Redundant literals in resolution chains

`SatProofManager::endResChain` and `processRedundantLit` of
`prop/minisat/sat_proof_manager.cpp`.  A literal that the solver left out of a
learned clause is resolved away with its reason, and so are the literals that
this brings in.  All links are put in at one position, so the last one is the
first to be resolved with.
-/

namespace EthosCpc.Cvc5.SatProof

open List

/-- A link of `d_resLinks`, with its clause as the list of the literals. -/
structure ResLink where
  clause : List SatLiteral
  pivot : Nat
  posFirst : Bool

/-- The implication graph of the solver: the values of the variables, the order in which they were
assigned, and their reasons. -/
structure ImplicationGraph where
  value : Nat → Bool
  order : Nat → Nat
  reason : Nat → Option (List SatLiteral)
  implied : ∀ v c, reason v = some c → c.head? = some ⟨v, !value v⟩ ∧
    ∀ q ∈ c.tail, value q.var = q.negated ∧ order q.var < order v

/-- `visited` and `d_resLinks`. -/
structure State where
  visited : List SatLiteral
  resLinks : List ResLink

def State.addLink (s : State) (pos : Nat) (clause : List SatLiteral) (lit : SatLiteral) : State :=
  ⟨lit :: s.visited, s.resLinks.insertIdx pos ⟨clause, lit.var, !lit.negated⟩⟩

def resolve (C : List SatLiteral) (l : ResLink) : Option (List SatLiteral) :=
  let lit : SatLiteral := ⟨l.pivot, !l.posFirst⟩
  if lit ∈ C ∧ lit.neg ∈ l.clause then
    some (C.filter (· ≠ lit) ++ l.clause.filter (· ≠ lit.neg))
  else none

section Graph

variable (G : ImplicationGraph) (conclusionLits : List SatLiteral)

/-- `SatProofManager::processRedundantLit`. -/
def processRedundantLit (pos : Nat) (lit : SatLiteral) (s : State) : State :=
  if lit ∈ s.visited then s
  else
    match _h : G.reason lit.var with
    | none => s.addLink pos [lit.neg] lit
    | some reason =>
      (reason.tail.attach.foldl (fun s satLit =>
        if satLit.1 ∈ conclusionLits then s else processRedundantLit pos satLit.1 s) s).addLink
          pos reason lit
termination_by G.order lit.var
decreasing_by exact ((G.implied _ _ _h).2 _ satLit.2).2

/-- The links of `SatProofManager::endResChain`. -/
def endResChain (resLinks : List ResLink) (redundantLits : List SatLiteral) : List ResLink :=
  (redundantLits.foldl (fun s lit => processRedundantLit G conclusionLits resLinks.length lit s)
    ⟨[], resLinks⟩).resLinks

def others (l : SatLiteral) : List SatLiteral := ((G.reason l.var).map tail).getD []

/-- The link that resolves a literal away. -/
def link (l : SatLiteral) : ResLink :=
  ⟨(G.reason l.var).getD [l.neg], l.var, !l.negated⟩

/-- False literals, each before the ones that its link brings in. -/
def Ordered : List SatLiteral → Prop
  | [] => True
  | l :: ls => G.value l.var = l.negated ∧ l ∉ ls ∧
      (∀ q ∈ others G l, q ∈ conclusionLits ∨ q ∈ ls) ∧ Ordered ls

/-- Each literal is there at the start, or a link before it brings it in. -/
def Fed (R : List SatLiteral) : List SatLiteral → Prop
  | [] => True
  | l :: ls => l ∈ R ∧ Fed (others G l ++ R) ls

/-- The links are those of the visited literals, which are ordered. -/
structure Valid (start : List ResLink) (s : State) : Prop where
  links : s.resLinks = start ++ s.visited.map (link G)
  ordered : Ordered G conclusionLits s.visited

/-- A search from some literals visits `new`, which all have `P`. -/
structure Visits (start : List ResLink) (lits : List SatLiteral) (P : SatLiteral → Prop)
    (s s' : State) (new : List SatLiteral) : Prop where
  visited : s'.visited = new ++ s.visited
  valid : Valid G conclusionLits start s'
  mem : ∀ l ∈ lits, l ∈ conclusionLits ∨ l ∈ s'.visited
  holds : ∀ l ∈ new, P l
  fed : Fed G lits new

end Graph

variable {G : ImplicationGraph} {concl : List SatLiteral} {start : List ResLink} {s : State}

lemma Fed.mono {R R' ls : List SatLiteral} (h : Fed G R ls) (hR : ∀ l ∈ ls, l ∈ R → l ∈ R') :
    Fed G R' ls := by
  induction ls generalizing R R' with
  | nil => trivial
  | cons l ls ih =>
    refine ⟨hR l (.head _) h.1, ih h.2 fun x hx hxR => ?_⟩
    rw [mem_append] at hxR ⊢
    exact hxR.imp_right (hR x (.tail _ hx))

lemma Fed.append {R ls ls' : List SatLiteral} (h : Fed G R ls) (h' : Fed G R ls') :
    Fed G R (ls ++ ls') := by
  induction ls generalizing R with
  | nil => exact h'
  | cons l ls ih => exact ⟨h.1, ih h.2 (h'.mono fun _ _ => mem_append_right _)⟩

/-! ## The search -/

lemma insertIdx_append {α : Type} (a b : List α) (x : α) :
    (a ++ b).insertIdx a.length x = a ++ x :: b := by
  induction a with
  | nil => rfl
  | cons y a ih => exact congrArg (y :: ·) ih

lemma Valid.addLink {lit : SatLiteral} (h : Valid G concl start s)
    (hfalse : G.value lit.var = lit.negated) (hnew : lit ∉ s.visited)
    (hothers : ∀ q ∈ others G lit, q ∈ concl ∨ q ∈ s.visited) :
    Valid G concl start (s.addLink start.length ((G.reason lit.var).getD [lit.neg]) lit) where
  links := by
    rw [State.addLink, h.links, insertIdx_append]
    rfl
  ordered := ⟨hfalse, hnew, hothers, h.ordered⟩

lemma foldl_visits {P : SatLiteral → Prop} {f : State → SatLiteral → State}
    {lits : List SatLiteral} (hf : ∀ q ∈ lits, ∀ s, Valid G concl start s →
      ∃ new, Visits G concl start [q] P s (f s q) new)
    (hs : Valid G concl start s) :
    ∃ new, Visits G concl start lits P s (lits.foldl f s) new := by
  induction lits generalizing s with
  | nil => exact ⟨[], rfl, hs, nofun, nofun, trivial⟩
  | cons q qs ih =>
    obtain ⟨new, h⟩ := hf q (.head _) s hs
    obtain ⟨news, hs'⟩ := ih (fun q hq => hf q (.tail _ hq)) h.valid
    refine ⟨news ++ new, ?_, hs'.valid, ?_, ?_, ?_⟩
    · rw [foldl_cons, hs'.visited, h.visited, append_assoc]
    · intro l hl
      rcases mem_cons.1 hl with rfl | hl
      · refine (h.mem l (.head _)).imp_right fun hmem => ?_
        rw [foldl_cons, hs'.visited]
        exact mem_append_right _ hmem
      · exact hs'.mem l hl
    · intro l hl
      exact (mem_append.1 hl).elim (hs'.holds l) (h.holds l)
    refine (hs'.fed.mono fun _ _ => mem_cons_of_mem _).append (h.fed.mono fun x _ hx => ?_)
    rw [mem_singleton.1 hx]
    exact .head _

lemma processRedundantLit_visits (lit : SatLiteral) (hfalse : G.value lit.var = lit.negated)
    (hs : Valid G concl start s) :
    ∃ new, Visits G concl start [lit] (G.order ·.var ≤ G.order lit.var) s
      (processRedundantLit G concl start.length lit s) new := by
  induction hn : G.order lit.var using Nat.strongRecOn generalizing lit s with
  | ind n ih =>
    rw [processRedundantLit]
    split
    · rename_i hvis
      exact ⟨[], rfl, hs, by simpa using .inr hvis, nofun, trivial⟩
    rename_i hvis
    split
    · rename_i hreason
      have hnone : others G lit = [] := by rw [others, hreason]; rfl
      refine ⟨[lit], rfl, ?_, fun l hl => .inr ?_, ?_, .head _, trivial⟩
      · have hvalid := hs.addLink hfalse hvis (by rw [hnone]; nofun)
        rwa [hreason] at hvalid
      · exact mem_append_left _ hl
      intro l hl
      rw [mem_singleton.1 hl]
      exact Nat.le_of_eq hn
    rename_i reason hreason
    have hothers : others G lit = reason.tail := by rw [others, hreason]; rfl
    rw [foldl_attach (f := fun s q => if q ∈ concl then s else
      processRedundantLit G concl start.length q s)]
    obtain ⟨new, h⟩ : ∃ new, Visits G concl start reason.tail (G.order ·.var < n) s
        (reason.tail.foldl (fun s q => if q ∈ concl then s else
          processRedundantLit G concl start.length q s) s) new := by
      refine foldl_visits (fun q hq s hs => ?_) hs
      obtain ⟨hqfalse, hlt⟩ := (G.implied _ _ hreason).2 q hq
      by_cases hq : q ∈ concl
      · rw [if_pos hq]
        exact ⟨[], rfl, hs, by simpa using .inl hq, nofun, trivial⟩
      rw [if_neg hq]
      obtain ⟨new, h⟩ := ih _ (hn ▸ hlt) q hqfalse hs rfl
      exact ⟨new, h.visited, h.valid, h.mem, fun l hl => by have := h.holds l hl; omega, h.fed⟩
    have hnew : lit ∉ new ++ s.visited := by
      intro hmem
      rcases mem_append.1 hmem with hmem | hmem
      · have := h.holds lit hmem
        omega
      · exact hvis hmem
    refine ⟨lit :: new, congrArg (lit :: ·) h.visited, ?_, fun l hl => .inr ?_, ?_, .head _, ?_⟩
    · have hvalid := h.valid.addLink hfalse (h.visited ▸ hnew) (hothers ▸ h.mem)
      rwa [hreason] at hvalid
    · rw [mem_singleton.1 hl]
      exact .head _
    · intro l hl
      rcases mem_cons.1 hl with rfl | hl
      · omega
      · have := h.holds l hl
        omega
    · exact h.fed.mono fun x _ hx => mem_append_left _ (hothers ▸ hx)

lemma link_clause {l : SatLiteral} (hfalse : G.value l.var = l.negated) :
    (link G l).clause = l.neg :: others G l := by
  unfold link others
  cases hreason : G.reason l.var with
  | none => rfl
  | some c =>
    have hhead := (G.implied _ _ hreason).1
    rw [hfalse] at hhead
    exact (cons_head?_tail hhead).symm

lemma neg_notMem_others (l : SatLiteral) : l.neg ∉ others G l := by
  intro hmem
  unfold others at hmem
  cases hreason : G.reason l.var with
  | none =>
    rw [hreason] at hmem
    cases hmem
  | some c =>
    rw [hreason] at hmem
    have hlt := ((G.implied _ _ hreason).2 _ hmem).2
    exact Nat.lt_irrefl _ hlt

lemma foldlM_resolve {ls C : List SatLiteral} (hord : Ordered G concl ls)
    (hfed : Fed G C ls) (hC : ∀ l ∈ C, l ∈ concl ∨ l ∈ ls) :
    ∃ C', (ls.map (link G)).foldlM resolve C = some C' ∧ C' ⊆ concl := by
  induction ls generalizing C with
  | nil => exact ⟨C, rfl, fun l hl => (hC l hl).resolve_right not_mem_nil⟩
  | cons l ls ih =>
    obtain ⟨hfalse, hnew, hothers, hord⟩ := hord
    have hclause : (link G l).clause = l.neg :: others G l := link_clause hfalse
    have hlit : (⟨(link G l).pivot, !(link G l).posFirst⟩ : SatLiteral) = l := by simp [link]
    have hres : resolve C (link G l) =
        some (C.filter (· ≠ l) ++ (l.neg :: others G l).filter (· ≠ l.neg)) := by
      rw [resolve, hlit, hclause, if_pos ⟨hfed.1, mem_cons_self⟩]
    have hmem : ∀ x, x ∈ C.filter (· ≠ l) ++ (l.neg :: others G l).filter (· ≠ l.neg) ↔
        (x ∈ C ∧ x ≠ l) ∨ x ∈ others G l := by
      intro x
      have hne : x ∈ others G l → x ≠ l.neg := fun hx heq => neg_notMem_others l (heq ▸ hx)
      simp only [mem_append, mem_filter, mem_cons, decide_eq_true_eq]
      refine or_congr Iff.rfl ⟨fun h => h.1.resolve_left h.2, fun h => ⟨.inr h, hne h⟩⟩
    rw [map_cons, foldlM_cons, hres]
    refine ih hord (hfed.2.mono fun x hx hxR => ?_) fun x hx => ?_
    · rw [hmem]
      rcases mem_append.1 hxR with hxo | hxC
      · exact .inr hxo
      · exact .inl ⟨hxC, fun heq => hnew (heq ▸ hx)⟩
    rcases (hmem x).1 hx with ⟨hxC, hxl⟩ | hxo
    · exact (hC x hxC).imp_right fun hx => (mem_cons.1 hx).resolve_left hxl
    · exact hothers x hxo

/-- The links resolve all redundant literals away. -/
theorem endResChain_correct (resLinks : List ResLink) {redundantLits : List SatLiteral}
    (hfalse : ∀ l ∈ redundantLits, G.value l.var = l.negated) :
    ∃ links, endResChain G concl resLinks redundantLits = resLinks ++ links ∧
      ∃ C, links.foldlM resolve (concl ++ redundantLits) = some C ∧ C ⊆ concl := by
  obtain ⟨new, h⟩ := foldl_visits (P := fun _ => True) (s := ⟨[], resLinks⟩)
    (f := fun s lit => processRedundantLit G concl resLinks.length lit s)
    (fun q hq s hs => (processRedundantLit_visits q (hfalse q hq) hs).imp fun new h =>
      ⟨h.visited, h.valid, h.mem, fun _ _ => trivial, h.fed⟩) ⟨(append_nil _).symm, trivial⟩
  refine ⟨_, h.valid.links, foldlM_resolve h.valid.ordered ?_ fun l hl => ?_⟩
  · rw [h.visited, append_nil]
    exact h.fed.mono fun _ _ => mem_append_right _
  · exact (mem_append.1 hl).elim .inl (h.mem l)

/-- The third variable is false by the other two. -/
def threeVars : ImplicationGraph where
  value _ := false
  order v := v
  reason v := if v = 2 then some [⟨2, true⟩, ⟨1, false⟩, ⟨0, false⟩] else none
  implied := by
    intro v c h
    obtain ⟨rfl, h⟩ := Option.ite_none_right_eq_some.1 h
    cases h
    decide

theorem endResChain_correct_three :
    ∃ links, endResChain threeVars [⟨0, false⟩] [] [⟨1, false⟩, ⟨2, false⟩] = [] ++ links ∧
      ∃ C, links.foldlM resolve ([⟨0, false⟩] ++ [⟨1, false⟩, ⟨2, false⟩]) = some C ∧
        C ⊆ [⟨0, false⟩] :=
  endResChain_correct [] (by decide)

end EthosCpc.Cvc5.SatProof
