import EthosCpc.Cpc.WordEq
import EthosCpc.Cvc5.ReProofChecker

/-!
# The checker of the word equation rules in cvc5

`CONCAT_EQ`, `CONCAT_UNIFY`, `CONCAT_SPLIT`, `CONCAT_CSPLIT`, `CONCAT_LPROP`,
`CONCAT_CPROP` and `STRING_DECOMPOSE` of `StringProofRuleChecker::checkInternal`
in `theory/strings/proof_checker.cpp`, with `CoreSolver::getConclusion`,
`getSufficientNonEmptyOverlap` and `getDecomposeConclusion` of
`theory/strings/core_solver.cpp` and the skolems of
`SkolemCache::normalizeStringSkolem` that they ask for.

A skolem is written as `@purify` of the term that it purifies.  The checker has
no rewriter, so that the terms of the skolems are not rewritten.
-/

namespace EthosCpc.Cvc5

open Library
open StrNode

/-! ## Components -/

def getConcat : StrNode → List StrNode
  | .app (.sym .strConcat) cs => cs
  | n => [n]

/-- `utils::mkConcat`, of strings. -/
def mkConcat : List StrNode → StrNode
  | [] => str []
  | [x] => x
  | xs => mk .strConcat xs

/-- The component at an index from the front, or from the back. -/
def component (isRev : Bool) (v : List StrNode) (index : Nat) : Option StrNode :=
  if isRev then (if index < v.length then v[v.length - 1 - index]? else none) else v[index]?

/-- The loop of `CONCAT_EQ`: how many components are equal. -/
def equalComponents (isRev : Bool) (tvec svec : List StrNode) : Nat → Nat → Nat
  | 0, index => index
  | k + 1, index =>
    if index < svec.length ∧ index < tvec.length ∧
        component isRev tvec index = component isRev svec index then
      equalComponents isRev tvec svec k (index + 1)
    else index

/-- The components that remain. -/
def remainder (isRev : Bool) (v : List StrNode) (index : Nat) : List StrNode :=
  if isRev then v.take (v.length - index) else v.drop index

/-! ## Skolems -/

/-- The identifiers of skolems, with their arguments. -/
inductive StringSkolem
  | skPrefix (a b : StrNode) | skSuffixRem (a b : StrNode)
  | idCSpt (a b : StrNode) | idCSptRev (a b : StrNode)
  | idVcSpt (a : StrNode) | idVcSptRev (a : StrNode)
  | idVUnifiedSpt (a b : StrNode) | idVUnifiedSptRev (a b : StrNode)

/-- `(str.len a)`. -/
def mkLength (a : StrNode) : StrNode := mk .strLen [a]

/-- `(- a b)`. -/
def mkSub (a b : StrNode) : StrNode := mk .minus [a, b]

namespace StringSkolem

/-- The first part of `normalizeStringSkolem`: prefixes and suffixes. -/
def elim : StringSkolem → StringSkolem
  | idCSpt a b => skSuffixRem a (mkLength b)
  | idCSptRev a b => skPrefix a (mkSub (mkLength a) (mkLength b))
  | idVcSpt a => skSuffixRem a (num 1)
  | idVcSptRev a => skPrefix a (mkSub (mkLength a) (num 1))
  | id => id

def unifiedSplit (a b : StrNode) (isRev : Bool) : StrNode :=
  let la := mkLength a
  let lb := mkLength b
  let ta := if isRev then mkPrefix a (mkSub la lb) else mkSuffix a lb
  let tb := if isRev then mkPrefix b (mkSub lb la) else mkSuffix b la
  mk .ite [mk .geq [la, lb], ta, tb]

/-- The rest of `normalizeStringSkolem`: the term to purify. -/
def purified : StringSkolem → StrNode
  | idVUnifiedSpt a b => unifiedSplit a b false
  | idVUnifiedSptRev a b => unifiedSplit a b true
  | skPrefix a b => mkPrefix a b
  | skSuffixRem a b => mkSuffix a b
  | idCSpt a _ | idCSptRev a _ | idVcSpt a | idVcSptRev a => a

/-- `mkSkolemCached`. -/
def node (id : StringSkolem) : StrNode := mk .purify [id.elim.purified]

end StringSkolem

/-! ## Conclusions -/

/-- The concatenation of two strings, the other way round in the reverse direction. -/
def mkConcatDir (isRev : Bool) (a b : StrNode) : StrNode :=
  if isRev then mk .strConcat [b, a] else mk .strConcat [a, b]

/-- `getConclusion` for `CONCAT_SPLIT` and `CONCAT_LPROP`. -/
def splitConclusion (x y : StrNode) (lprop isRev : Bool) : StrNode :=
  let sk := (if isRev then StringSkolem.idVUnifiedSptRev x y else .idVUnifiedSpt x y).node
  let eq1 := eqNode x (mkConcatDir isRev y sk)
  let conc := if lprop then eq1 else mk .or [eq1, eqNode y (mkConcatDir isRev x sk)]
  mk .and [conc, (eqNode sk (str [])).negate, mk .gt [mkLength sk, num 0]]

/-- `getConclusion` for `CONCAT_CSPLIT`. -/
def csplitConclusion (x : StrNode) (y : Str) (isRev : Bool) : StrNode :=
  let firstChar := if y.length = 1 then y else if isRev then y.drop (y.length - 1) else y.take 1
  let sk := (if isRev then StringSkolem.idVcSptRev x else .idVcSpt x).node
  eqNode x (mkConcatDir isRev (str firstChar) sk)

/-- The loop of `Word::overlap`. -/
def overlapFrom (x y : Str) : Nat → Nat
  | 0 => 0
  | i + 1 => if x.drop (x.length - (i + 1)) = y.take (i + 1) then i + 1 else overlapFrom x y i

def overlap (x y : Str) : Nat := overlapFrom x y (min x.length y.length)

/-- The loop of `Word::roverlap`. -/
def roverlapFrom (x y : Str) : Nat → Nat
  | 0 => 0
  | i + 1 => if x.take (i + 1) = y.drop (y.length - (i + 1)) then i + 1 else roverlapFrom x y i

def roverlap (x y : Str) : Nat := roverlapFrom x y (min x.length y.length)

/-- `Word::rfind`: the distance of the last occurrence of `y` from the end of `x`. -/
def rfind (x y : Str) : Option Nat := Words.find y.reverse x.reverse

def getSufficientNonEmptyOverlap (c d : Str) (isRev : Bool) : Nat :=
  let c1 := if isRev then c.take (c.length - 1) else c.drop 1
  let p := c.length - (if isRev then roverlap c1 d else overlap c1 d)
  let p2 := if isRev then rfind c1 d else Words.find d c1
  match p2 with
  | none => p
  | some p2 => if p > p2 + 1 then p2 + 1 else p

/-- `getConclusion` for `CONCAT_CPROP`. -/
def cpropConclusion (z : StrNode) (d c : Str) (isRev : Bool) : StrNode :=
  let rp := num (getSufficientNonEmptyOverlap c d isRev)
  let preC := if isRev then mkSuffixOfLen (str c) rp else mkPrefix (str c) rp
  let sk := (if isRev then StringSkolem.idCSptRev z preC else .idCSpt z preC).node
  eqNode z (mkConcatDir isRev preC sk)

def getDecomposeConclusion (x l : StrNode) (isRev : Bool) : StrNode :=
  let n := if isRev then mkSub (mkLength x) l else l
  let sk1 := (StringSkolem.skPrefix x n).node
  let sk2 := (StringSkolem.skSuffixRem x n).node
  mk .and [eqNode x (mk .strConcat [sk1, sk2]), eqNode (mkLength (if isRev then sk2 else sk1)) l]

/-! ## Steps -/

/-- The rules on word equations. -/
inductive WordEqRule
  | concatEq | concatUnify | concatSplit | concatCsplit | concatLprop | concatCprop
  | stringDecompose
  deriving DecidableEq, Repr

/-- The sides of an equality. -/
def asEqual : StrNode → Option (StrNode × StrNode)
  | .app (.sym .eq) [a, b] => some (a, b)
  | _ => none

/-- The string of a length. -/
def asLength : StrNode → Option StrNode
  | .app (.sym .strLen) [a] => some a
  | _ => none

/-- `(not (= (str.len a) 0))`. -/
def isLengthNonzero (n a : StrNode) : Bool :=
  decide (n = mk .not [eqNode (mkLength a) (num 0)])

/-- `CONCAT_EQ`. -/
def checkConcatEq (t s : StrNode) (isRev : Bool) : StrNode :=
  let tvec := getConcat t
  let svec := getConcat s
  let index := equalComponents isRev tvec svec tvec.length 0
  eqNode (mkConcat (remainder isRev tvec index)) (mkConcat (remainder isRev svec index))

/-- The rules with a second premise, on the first components of both sides. -/
def checkComponents (id : WordEqRule) (tvec : List StrNode) (t0 s0 second : StrNode)
    (isRev : Bool) : Option StrNode :=
  match id with
  | .concatUnify =>
    (asEqual second).bind fun ls => (asLength ls.1).bind fun l1 => (asLength ls.2).bind fun l2 =>
      if l1 = t0 ∧ l2 = s0 then some (eqNode l1 l2) else none
  | .concatSplit =>
    if second = mk .not [eqNode (mkLength t0) (mkLength s0)] then
      some (splitConclusion t0 s0 false isRev)
    else none
  | .concatLprop =>
    if second = mk .gt [mkLength t0, mkLength s0] then some (splitConclusion t0 s0 true isRev)
    else none
  | .concatCsplit =>
    if isLengthNonzero second t0 then
      match s0 with
      | .leaf (.str y) => if y.length = 1 then some (csplitConclusion t0 y isRev) else none
      | _ => none
    else none
  | .concatCprop =>
    if isLengthNonzero second t0 then
      match component isRev tvec 1, s0 with
      | some (.leaf (.str w1)), .leaf (.str w2) =>
        if w1 ≠ [] ∧ w2 ≠ [] then some (cpropConclusion t0 w1 w2 isRev) else none
      | _, _ => none
    else none
  | .concatEq | .stringDecompose => none

/-- `STRING_DECOMPOSE`. -/
def checkDecompose (first second : StrNode) (isRev : Bool) : Option StrNode :=
  match first, second with
  | .app (.sym .geq) [n, .leaf (.num 0)], .app (.sym .geq) [.app (.sym .strLen) [x], l] =>
    if n = l then some (getDecomposeConclusion x l isRev) else none
  | _, _ => none

/-- `StringProofRuleChecker::checkInternal` for these rules. -/
def checkWordEq (id : WordEqRule) (children : List StrNode) (isRev : Bool) : Option StrNode :=
  match id, children with
  | .concatEq, [eq] => (asEqual eq).map fun ts => checkConcatEq ts.1 ts.2 isRev
  | .stringDecompose, [first, second] => checkDecompose first second isRev
  | .concatEq, _ | .stringDecompose, _ => none
  | id, [eq, second] =>
    (asEqual eq).bind fun ts =>
      (component isRev (getConcat ts.1) 0).bind fun t0 =>
        (component isRev (getConcat ts.2) 0).bind fun s0 =>
          checkComponents id (getConcat ts.1) t0 s0 second isRev
  | _, _ => none

/-- The step of the signature on the printed premises. -/
def WordEqRule.step (id : WordEqRule) (children : List StrNode) (isRev : Bool) :
    Option WordEqStep :=
  match id, children with
  | .concatEq, [.app (.sym .eq) [s, t]] => some (.concatEq s.print t.print isRev)
  | .concatUnify, [.app (.sym .eq) [s, t],
      .app (.sym .eq) [.app (.sym .strLen) [s1], .app (.sym .strLen) [t1]]] =>
        some (.concatUnify s.print t.print s1.print t1.print isRev)
  | .concatSplit, [.app (.sym .eq) [t, s], .app (.sym .not)
      [.app (.sym .eq) [.app (.sym .strLen) [tc], .app (.sym .strLen) [sc]]]] =>
        some (.concatSplit t.print s.print tc.print sc.print isRev)
  | .concatLprop, [.app (.sym .eq) [t, s],
      .app (.sym .gt) [.app (.sym .strLen) [tc], .app (.sym .strLen) [sc]]] =>
        some (.concatLprop t.print s.print tc.print sc.print isRev)
  | .concatCsplit, [.app (.sym .eq) [t, s], .app (.sym .not)
      [.app (.sym .eq) [.app (.sym .strLen) [u], .leaf (.num 0)]]] =>
        some (.concatCsplit t.print s.print u.print isRev)
  | .concatCprop, [.app (.sym .eq) [t, s], .app (.sym .not)
      [.app (.sym .eq) [.app (.sym .strLen) [tc], .leaf (.num 0)]]] =>
        some (.concatCprop t.print tc.print s.print isRev)
  | .stringDecompose, [.app (.sym .geq) [n, .leaf (.num 0)],
      .app (.sym .geq) [.app (.sym .strLen) [s], _]] =>
        some (.stringDecompose s.print n.print isRev)
  | _, _ => none

end EthosCpc.Cvc5
