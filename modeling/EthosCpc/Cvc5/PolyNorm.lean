import EthosCpc.Cvc5.Node
import EthosCpc.Library.MapPoly

/-!
# Polynomial normalization in cvc5

`theory/arith/arith_poly_norm.cpp`.  A `PolyNorm` is a map from monomials to
coefficients.  A monomial is the list of its variables: the null node for the
empty list, the variable itself for one, an `SEXPR` for more.

`mkPolyNorm` is the traversal of the source: a stack of nodes to visit and a
map of the nodes visited, where an empty polynomial also marks a node whose
children are still on the stack.  Nodes are ordered by `le` and the keys of a
map by `before`, parameters here, since both orders are those of node
identifiers.
-/

namespace EthosCpc.Cvc5

open Library (MapPoly)
open Library.MapPoly (addMonomial mapCoeffs eraseZeroes mulCoeffs multiplyMonomial add
  subtract multiply isEqual)

abbrev PolyNorm := MapPoly Node Rat

variable (Γ : Nat → Ty) (le : Node → Node → Bool) (before : List Node → List Node → Bool)

def modCoeffs (p : PolyNorm) (m : Int) : PolyNorm :=
  eraseZeroes (mapCoeffs (fun c => ((c.num % m : Int) : Rat)) p)

/-! ## The traversal -/

/-- Kinds that are computed from all their children. -/
def isPolyOp : Kind → Bool
  | .add | .sub | .neg | .mult | .nonlinearMult | .toReal
  | .bvAdd | .bvSub | .bvNeg | .bvMult => true
  | _ => false

/-- The children of a division by a nonzero constant: the dividend and the
constant. -/
def constDivision? : Kind → List Node → Option (Node × Rat)
  | .division, a :: c :: _ | .divisionTotal, a :: c :: _ =>
    match c.rational? with
    | some q => if q ≠ 0 then some (a, q) else none
    | none => none
  | _, _ => none

/-- A node that is seen for the first time: its polynomial, or the nodes to
visit before it. -/
def firstVisit : Node → PolyNorm ⊕ List Node
  | .constInteger z => .inl (addMonomial ∅ [] z false)
  | .constRational q => .inl (addMonomial ∅ [] q false)
  | .constBitvector _ v => .inl (addMonomial ∅ [] v.toNat false)
  | .constBoolean b => .inl (addMonomial ∅ [.constBoolean b] 1 false)
  | .app k cs =>
    if isPolyOp k then .inr cs
    else match constDivision? k cs with
      | some (a, _) => .inr [a]
      | none => .inl (addMonomial ∅ [.app k cs] 1 false)

def isSubtracted (k : Kind) (i : Nat) : Bool :=
  (decide (k = .sub ∨ k = .bvSub) && decide (i = 1)) || decide (k = .neg ∨ k = .bvNeg)

def isMultiplied (k : Kind) (i : Nat) : Bool :=
  decide (0 < i) && decide (k = .mult ∨ k = .nonlinearMult ∨ k = .bvMult)

/-- Combine the polynomials of the children from the `i`-th on. -/
def combine (k : Kind) : Nat → PolyNorm → List PolyNorm → PolyNorm
  | _, ret, [] => ret
  | i, ret, p :: ps =>
    combine k (i + 1) (if isSubtracted k i then subtract ret p
        else if isMultiplied k i then multiply le ret p
        else add ret p) ps

/-- The nodes visited so far and their polynomials. -/
abbrev Visited := AList fun _ : Node => PolyNorm

/-- A visited node whose polynomial is empty: compute it from the polynomials of
its children. -/
def secondVisit (visited : Visited) : Node → Option PolyNorm
  | .constInteger _ | .constRational _ | .constBitvector _ _ => some ∅
  | .constBoolean _ => none
  | .app k cs =>
    if isPolyOp k then (cs.mapM visited.lookup).map (combine le k 0 ∅)
    else (constDivision? k cs).bind fun aq =>
      (visited.lookup aq.1).map fun p => multiplyMonomial le (add ∅ p) [] aq.2⁻¹

/-- The state of the traversal: `visited` and `visit`, the stack with its top
first. -/
structure Traversal where
  visited : Visited
  visit : List Node

/-- One round of the loop. -/
def Traversal.step (s : Traversal) : Option Traversal :=
  match s.visit with
  | [] => none
  | cur :: rest =>
    match s.visited.lookup cur with
    | none =>
      match firstVisit cur with
      | .inl p => some ⟨s.visited.insert cur p, rest⟩
      | .inr cs => some ⟨s.visited.insert cur ∅, cs.reverse ++ cur :: rest⟩
    | some p =>
      if p.entries = [] then
        (secondVisit le s.visited cur).map fun r => ⟨s.visited.insert cur r, rest⟩
      else some ⟨s.visited, rest⟩

/-- The loop, for at most the given number of rounds. -/
def Traversal.run : Nat → Traversal → Option Traversal
  | 0, s => if s.visit = [] then some s else none
  | n + 1, s => if s.visit = [] then some s else (s.step le).bind (run n)

mutual

def rounds : Node → Nat
  | .app _ cs => 2 + roundsList cs
  | _ => 2

def roundsList : List Node → Nat
  | [] => 0
  | c :: cs => rounds c + roundsList cs

end

def mkPolyNorm (n : Node) : Option PolyNorm :=
  (Traversal.run le (rounds n) ⟨∅, [n]⟩).bind fun s => s.visited.lookup n

def mkDiff (a b : Node) : Option PolyNorm :=
  (mkPolyNorm le a).bind fun pa => (mkPolyNorm le b).map fun pb => subtract pa pb

/-! ## Comparisons -/

def areEqualPolyNormTyped (t : Ty) (pa pb : PolyNorm) : Bool :=
  match t with
  | .bitvec w => isEqual (modCoeffs pa (2 ^ w)) (modCoeffs pb (2 ^ w))
  | _ => isEqual pa pb

def isArithPolyNorm (a b : Node) : Option Bool :=
  (a.typeOf Γ).bind fun t =>
    if t = .bool then none
    else if a = b then some true
    else (mkPolyNorm le a).bind fun pa => (mkPolyNorm le b).map fun pb =>
      areEqualPolyNormTyped t pa pb

def leastUpperBound : Ty → Ty → Option Ty
  | .int, .real | .real, .int => some .real
  | A, B => if A = B then some A else none

/-- The type at which two equalities are compared, if they are comparable. -/
def eqTypes (a0 a1 b0 b1 : Node) : Option (Option Ty) :=
  (a0.typeOf Γ).bind fun A0 => (a1.typeOf Γ).bind fun A1 =>
  (b0.typeOf Γ).bind fun B0 => (b1.typeOf Γ).bind fun B1 =>
  (leastUpperBound A0 A1).bind fun eqtn => (leastUpperBound B0 B1).map fun eqtn2 =>
    if eqtn.isArithType then
      if eqtn2.isArithType then some eqtn else none
    else
      match leastUpperBound eqtn eqtn2 with
      | some (.bitvec w) => some (.bitvec w)
      | _ => none

/-- The entries of a map, in the order of their keys. -/
def sortedEntries (p : PolyNorm) : List (Σ _ : List Node, Rat) :=
  p.entries.mergeSort fun e e' => before e.1 e'.1

/-- The factors for two bit-vector polynomials: those of the first monomial with
odd coefficients on both sides. -/
def oddFactors (w : Nat) (pb : PolyNorm) : List (Σ _ : List Node, Rat) → Option (Rat × Rat)
  | [] => some (1, 1)
  | m :: ms =>
    match pb.lookup m.1 with
    | none => none
    | some c =>
      if m.2.num % 2 ≠ c.num % 2 then none
      else if m.2.num % 2 = 1 then
        if m.2.num % 2 ^ w ≠ c.num % 2 ^ w then
          some (((c.num % 2 ^ w : Int) : Rat), ((m.2.num % 2 ^ w : Int) : Rat))
        else some (1, 1)
      else oddFactors w pb ms

/-- The first coefficient of a polynomial, one when there is none. -/
def firstCoeff (p : PolyNorm) : Rat :=
  match sortedEntries before p with
  | [] => 1
  | m :: _ => m.2

/-- The relations that allow to subtract the right side from the left. -/
def isOrderKind : Kind → Bool
  | .geq | .leq | .gt | .lt => true
  | _ => false

/-- The comparison of two differences by the first coefficients. -/
def arithRelFactors (k : Kind) (pa pb : PolyNorm) : Option (Rat × Rat) :=
  let ca := firstCoeff before pb
  let cb := firstCoeff before pa
  if isEqual (mulCoeffs pa ca) (mulCoeffs pb cb) && (decide (k = .equal) ||
      decide (SignType.sign ca = SignType.sign cb)) then some (ca, cb)
  else none

/-- The comparison of two bit-vector differences. -/
def bvRelFactors (w : Nat) (pa pb : PolyNorm) : Option (Rat × Rat) :=
  (oddFactors w pb (sortedEntries before pa)).bind fun cacb =>
    if areEqualPolyNormTyped (.bitvec w) (mulCoeffs pa cacb.1) (mulCoeffs pb cacb.2) then some cacb
    else none

/-- `PolyNorm::isArithPolyNormRel`, with the factors that it leaves in `ca` and
`cb` when it answers true. The outer `none` is a failed assertion. -/
def isArithPolyNormRel (ca cb : Rat) : Node → Node → Option (Option (Rat × Rat))
  | a, b =>
    if a.typeOf Γ ≠ some .bool then none
    else if a = b then some (some (ca, cb))
    else
      match a, b with
      | .app k [a0, a1], .app k' [b0, b1] =>
        if k' ≠ k then some none
        else if k = .equal then
          (eqTypes Γ a0 a1 b0 b1).bind fun eqtn =>
            match eqtn with
            | none => some none
            | some (.bitvec w) =>
              (mkDiff le a0 a1).bind fun pa => (mkDiff le b0 b1).map fun pb =>
                bvRelFactors before w pa pb
            | some _ =>
              (mkDiff le a0 a1).bind fun pa => (mkDiff le b0 b1).map fun pb =>
                arithRelFactors before k pa pb
        else if isOrderKind k then
          (mkDiff le a0 a1).bind fun pa => (mkDiff le b0 b1).map fun pb =>
            arithRelFactors before k pa pb
        else some none
      | _, _ => some none

/-- Add `to_real` to an integer term. -/
def toRealOf (x : Node) : Option Node :=
  (x.typeOf Γ).map fun T => if T = .int then .app .toReal [x] else x

def getArithPolyNormRelPremise (rx ry : Rat) : Node → Node → Option Node
  | .app _ (a0 :: a1 :: _), .app _ (b0 :: b1 :: _) =>
    match a0.typeOf Γ, b0.typeOf Γ with
    | some (.bitvec wa), some (.bitvec wb) =>
      some (.app .equal
        [.app .bvMult [.constBitvector wa (BitVec.ofInt wa rx.num), .app .bvSub [a0, a1]],
          .app .bvMult [.constBitvector wb (BitVec.ofInt wb ry.num), .app .bvSub [b0, b1]]])
    | _, _ =>
      let x := Node.app .sub [a0, a1]
      let y := Node.app .sub [b0, b1]
      if x.typeOf Γ = some .int ∧ y.typeOf Γ = some .int then
        some (.app .equal [.app .mult [.constInteger rx.num, x],
          .app .mult [.constInteger ry.num, y]])
      else
        (toRealOf Γ x).bind fun x' => (toRealOf Γ y).map fun y' =>
          .app .equal [.app .mult [.constRational rx, x'], .app .mult [.constRational ry, y']]
  | _, _ => none

end EthosCpc.Cvc5
