import EthosCpc.Hol.Collections

/-!
# Distinct terms of all types

`$are_distinct_terms` and `$are_distinct_terms_list` of
`programs/DistinctValues.eo`, with the rules `distinct_values` and
`distinct-true`, on terms with sets, sequences and datatypes.  Terms of one
type are compared down to the literals, constructors and lists of elements
they are built from.

The programs call each other on subterms.  Here the programs for sets,
sequences and datatypes take the test on elements as an argument, and
`areDistinctTermsType` closes the recursion with a bound on its depth.
-/

namespace EthosCpc.Hol

open EthosCpc.Hol.Term (bop uop)

/-! ## Literals and constructors -/

def isZ : Term → Bool
  | .num _ => true
  | _ => false

def isQ : Term → Bool
  | .rat _ => true
  | _ => false

def isStr : Term → Bool
  | .str _ => true
  | _ => false

def isBin : Term → Bool
  | .bin _ _ => true
  | _ => false

def isBool : Term → Bool
  | .bool _ => true
  | _ => false

def dtIsCons (t : Term) : Bool := t.consHead?.isSome

variable (Γ : Sig) (distinct : Term → Term → Option Bool)

/-! ## Sets -/

/-- `$set_is_not_subset` of `(set.singleton e1)`. -/
def elemIsNotIn (e1 : Term) : Term → Option Bool
  | .sym (.setEmpty _) => some true
  | .app (.sym .setSingleton) e2 => distinct e1 e2
  | .app (.app (.sym .setUnion) (.app (.sym .setSingleton) e2)) ss =>
    (distinct e1 e2).bind fun b => if b then elemIsNotIn e1 ss else some false
  | _ => none

def setIsNotSubset : Term → Term → Option Bool
  | .sym (.setEmpty _), _ => some false
  | .app (.sym .setSingleton) e1, s => elemIsNotIn distinct e1 s
  | .app (.app (.sym .setUnion) (.app (.sym .setSingleton) e1)) ts, s =>
    (elemIsNotIn distinct e1 s).bind fun b => if b then some true else setIsNotSubset ts s
  | _, _ => none

/-! ## Sequences -/

/-- `$seq_empty`. -/
def seqNil : Ty → Option Term
  | .seq .char => some (.str [])
  | .seq T => some (.sym (.seqEmpty T))
  | _ => none

def termTy (t : Term) : Option Ty :=
  match typeof Γ t with
  | some (.arg (.one T)) => some T
  | _ => none

/-- The singleton cases of `$seq_distinct_terms`: a unit becomes a list with one element. -/
def seqUnitIntro : Term → Option Term
  | .app (.sym .seqUnit) e =>
    ((termTy Γ (uop .seqUnit e)).bind seqNil).map fun nil => bop .seqConcat (uop .seqUnit e) nil
  | t => some t

/-- `$seq_distinct_terms`, with a bound on the number of calls. -/
def seqDistinctTerms : Nat → Term → Term → Option Bool
  | 0, _, _ => none
  | k + 1, t, s =>
    (seqUnitIntro Γ t).bind fun t => (seqUnitIntro Γ s).bind fun s =>
      match t, s with
      | .app (.app (.sym .seqConcat) (.app (.sym .seqUnit) e1)) ts,
        .app (.app (.sym .seqConcat) (.app (.sym .seqUnit) e2)) ss =>
          (distinct e1 e2).bind fun b => if b then some true else seqDistinctTerms k ts ss
      | t, s => some (decide (t ≠ s))

/-! ## Datatypes -/

def somePairwiseDistinctTerm : List Term → List Term → Option Bool
  | t :: ts, s :: ss =>
    (distinct t s).bind fun b => if b then some true else somePairwiseDistinctTerm ts ss
  | [], [] => some false
  | _, _ => none

def dtDistinctTerms (t s : Term) : Option Bool :=
  if dtIsCons t.appHead then
    if t.appHead = s.appHead then somePairwiseDistinctTerm distinct t.appArgs s.appArgs
    else some (dtIsCons s.appHead)
  else some false

/-! ## All types -/

/-- `eo::or` of two results. -/
def boolOr (a b : Option Bool) : Option Bool := a.bind fun x => b.map fun y => x || y

/-- `$are_distinct_terms` of two terms, given the test on terms of one type. -/
def distinctOf (byType : Term → Term → Ty → Option Bool) (t s : Term) : Option Bool :=
  if t = s then some false else (termTy Γ t).bind (byType t s)

/-- `$are_distinct_terms_type`, with a bound on the depth of the recursion and on the length of
sequences. -/
def areDistinctTermsType : Nat → Term → Term → Ty → Option Bool
  | 0, _, _, _ => none
  | k + 1, t, s, T =>
    if t = s then some false
    else
      match T with
      | .int => some (isZ t && isZ s)
      | .real => some (isQ t && isQ s)
      | .seq .char => some (isStr t && isStr s)
      | .bitvec _ => some (isBin t && isBin s)
      | .bool => some (isBool t && isBool s)
      | .set _ =>
        boolOr (setIsNotSubset (distinctOf Γ (areDistinctTermsType k)) t s)
          (setIsNotSubset (distinctOf Γ (areDistinctTermsType k)) s t)
      | .seq _ => seqDistinctTerms Γ (distinctOf Γ (areDistinctTermsType k)) (k + 1) t s
      | _ => dtDistinctTerms (distinctOf Γ (areDistinctTermsType k)) t s

def areDistinctTerms (k : Nat) (t s : Term) : Option Bool :=
  distinctOf Γ (areDistinctTermsType Γ k) t s

def areDistinctTermsListRec (k : Nat) (t : Term) (T : Ty) : List Term → Option Bool
  | [] => some true
  | s :: xs =>
    (areDistinctTermsType Γ k t s T).bind fun b =>
      if b then areDistinctTermsListRec k t T xs else some false

def areDistinctTermsList (k : Nat) (T : Ty) : List Term → Option Bool
  | [] => some true
  | t :: xs =>
    (areDistinctTermsListRec Γ k t T xs).bind fun b =>
      if b then areDistinctTermsList k T xs else some false

/-! ## The rules -/

def distinctValues (k : Nat) (t s : Term) : Option Term :=
  if areDistinctTerms Γ k t s = some true then some (uop .not (bop .eq t s)) else none

/-- Rule `distinct-true`; the type of the elements is that of the first one. -/
def distinctTrue (k : Nat) : Term → Option Term
  | .app (.app (.sym .eq) (.app (.sym .distinct) xs)) (.bool true) =>
    xs.toList.bind fun ts => (ts.head?.bind (termTy Γ)).bind fun T =>
      if areDistinctTermsList Γ k T ts = some true then
        some (bop .eq (uop .distinct xs) (.bool true))
      else none
  | _ => none

/-! ## Runs -/

section Runs

variable (runs : Term → Term → Prop)

/-- The comparisons that `elemIsNotIn` makes are among `runs`. -/
def ElemRuns (e1 : Term) : Term → Prop
  | .app (.sym .setSingleton) e2 => runs e1 e2
  | .app (.app (.sym .setUnion) (.app (.sym .setSingleton) e2)) ss =>
    runs e1 e2 ∧ (distinct e1 e2 = some true → ElemRuns e1 ss)
  | _ => True

/-- The comparisons that `setIsNotSubset` makes are among `runs`. -/
def SetRuns : Term → Term → Prop
  | .app (.sym .setSingleton) e1, s => ElemRuns distinct runs e1 s
  | .app (.app (.sym .setUnion) (.app (.sym .setSingleton) e1)) ts, s =>
    ElemRuns distinct runs e1 s ∧ (elemIsNotIn distinct e1 s = some false → SetRuns ts s)
  | _, _ => True

def isSeqNil : Term → Bool
  | .sym (.seqEmpty _) => true
  | .str [] => true
  | _ => false

/-- A sequence that begins with a unit. -/
def startsWithUnit : Term → Bool
  | .app (.app (.sym .seqConcat) (.app (.sym .seqUnit) _)) _ => true
  | _ => false

/-- One of the two lists has ended and the other has not, the case that the
last pattern of `$seq_distinct_terms` is meant for. -/
def OneEnded (t s : Term) : Prop :=
  isSeqNil t = true ∧ startsWithUnit s = true ∨ startsWithUnit t = true ∧ isSeqNil s = true

/-- The comparisons that `seqDistinctTerms` makes are among `runs`, and where its last pattern
answers true, one of the two lists has ended. -/
def SeqRuns : Nat → Term → Term → Prop
  | 0, _, _ => True
  | k + 1, t, s =>
    ∀ t' ∈ seqUnitIntro Γ t, ∀ s' ∈ seqUnitIntro Γ s,
      match t', s' with
      | .app (.app (.sym .seqConcat) (.app (.sym .seqUnit) e1)) ts,
        .app (.app (.sym .seqConcat) (.app (.sym .seqUnit) e2)) ss =>
          runs e1 e2 ∧ (distinct e1 e2 = some false → SeqRuns k ts ss)
      | t', s' => t' ≠ s' → OneEnded t' s'

/-- The comparisons that `somePairwiseDistinctTerm` makes are among `runs`. -/
def PairRuns : List Term → List Term → Prop
  | t :: ts, s :: ss => runs t s ∧ (distinct t s = some false → PairRuns ts ss)
  | _, _ => True

end Runs

/-- In the run of `$are_distinct_terms_type`, the last pattern of `$seq_distinct_terms` answers
true only where one of two lists of elements has ended. -/
def TypeRuns : Nat → Term → Term → Ty → Prop
  | 0, _, _, _ => True
  | k + 1, t, s, T =>
    let distinct := distinctOf Γ (areDistinctTermsType Γ k)
    let runs := fun t s => ∀ T ∈ termTy Γ t, TypeRuns k t s T
    match T with
    | .seq .char => True
    | .set _ => SetRuns distinct runs t s ∧ SetRuns distinct runs s t
    | .seq _ => SeqRuns Γ distinct runs (k + 1) t s
    | .int | .real | .bitvec _ | .bool => True
    | _ => t.appHead = s.appHead → PairRuns distinct runs t.appArgs s.appArgs

/-- The same for `$are_distinct_terms`. -/
def TermRuns (k : Nat) (t s : Term) : Prop := ∀ T ∈ termTy Γ t, TypeRuns Γ k t s T

/-- The same for `$are_distinct_terms_list`. -/
def ListRuns (k : Nat) (T : Ty) : List Term → Prop
  | [] => True
  | t :: xs => (∀ s ∈ xs, TypeRuns Γ k t s T) ∧ ListRuns k T xs

end EthosCpc.Hol
