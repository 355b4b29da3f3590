import EthosCpc.Cpc.DistinctValues

/-!
# Evaluation of sets

The programs and rules of `rules/Sets.eo` that evaluate an operation on two
sets and that eliminate `set.insert`.  The elements of a union of singletons
are a list, and `@list` is a Lean list.  An element that does not stand in
the other list is compared with every element of it.
-/

namespace EthosCpc.Hol

open EthosCpc.Hol.Term (bop uop)

variable (Γ : Sig)

def setUnionToList : Term → Option (List Term)
  | .app (.app (.sym .setUnion) (.app (.sym .setSingleton) e)) t => (setUnionToList t).map (e :: ·)
  | .sym (.setEmpty _) => some []
  | .app (.sym .setSingleton) e => some [e]
  | _ => none

/-- `($are_distinct_terms_list_rec a bs (eo::typeof a))` is true. -/
def isApart (k : Nat) (a : Term) (bs : List Term) : Bool :=
  decide ((termTy Γ a).bind (fun T => areDistinctTermsListRec Γ k a T bs) = some true)

def evalSetsInter (k : Nat) : List Term → List Term → Option (List Term)
  | [], _ => some []
  | a :: as, bs =>
    if a ∈ bs then (evalSetsInter k as bs).map (a :: ·)
    else if isApart Γ k a bs then evalSetsInter k as bs
    else none

def evalSetsMinus (k : Nat) : List Term → List Term → Option (List Term)
  | [], _ => some []
  | a :: as, bs =>
    if a ∈ bs then evalSetsMinus k as bs
    else if isApart Γ k a bs then (evalSetsMinus k as bs).map (a :: ·)
    else none

/-- The two lists of elements of an operation on two sets. -/
def setLists (s t : Term) : Option (List Term × List Term) :=
  (setUnionToList s).bind fun as => (setUnionToList t).map fun bs => (as, bs)

def evalSetsOp (k : Nat) : Term → Option (List Term)
  | .app (.app (.sym .setUnion) s) t => (setLists s t).map fun l => l.1 ++ l.2
  | .app (.app (.sym .setInter) s) t => (setLists s t).bind fun l => evalSetsInter Γ k l.1 l.2
  | .app (.app (.sym .setMinus) s) t => (setLists s t).bind fun l => evalSetsMinus Γ k l.1 l.2
  | _ => none

/-- Rule `sets-eval-op`; `eo::list_meq` compares up to order. -/
def setsEvalOp (k : Nat) : Term → Option Term
  | .app (.app (.sym .eq) a) b =>
    (evalSetsOp Γ k a).bind fun as => (setUnionToList b).bind fun bs =>
      if as.eraseDups.Perm bs then some (bop .eq a b) else none
  | _ => none

def setEvalInsert : Term → Term → Option Term
  | .app (.app (.sym .listCons) x) xs, t =>
    (setEvalInsert xs t).map fun u => bop .setUnion (uop .setSingleton x) u
  | .sym .listNil, t => some t
  | _, _ => none

def setsInsertElim : Term → Option Term
  | .app (.app (.sym .eq) (.app (.app (.sym .setInsert) es) s)) t =>
    if setEvalInsert es s = some t then some (bop .eq (bop .setInsert es s) t) else none
  | _ => none

/-- In the comparisons of the elements of `as` that do not stand in `bs`, the last pattern of
`$seq_distinct_terms` answers true only where one of two lists of elements has ended. -/
def EvalRuns (k : Nat) (as bs : List Term) : Prop :=
  ∀ a ∈ as, a ∉ bs → ∀ T ∈ termTy Γ a, ∀ b ∈ bs, TypeRuns Γ k a b T

/-- The same for `sets-eval-op`, which compares elements for an intersection and a difference. -/
def EvalOpRuns (k : Nat) : Term → Prop
  | .app (.app (.sym .eq) (.app (.app (.sym .setInter) s) t)) _ =>
    ∀ l ∈ setLists s t, EvalRuns Γ k l.1 l.2
  | .app (.app (.sym .eq) (.app (.app (.sym .setMinus) s) t)) _ =>
    ∀ l ∈ setLists s t, EvalRuns Γ k l.1 l.2
  | _ => True

end EthosCpc.Hol
