import EthosCpc.Library.LinearMod

/-!
# Gaussian elimination modulo a number in cvc5

`BVGauss::gaussElim` of `preprocessing/passes/bv_gauss.cpp`.  The modulus is
called `prime` there but may be any positive number.  Entries are reduced when
their column is reached, and a column without a pivot is skipped inside of the
loop over the rows.

A loop of the source over an index is a recursion on the number of its rounds.
The loops over the entries of one row change each entry for itself, so they are
a map over the row from the column `pcol` on.
-/

namespace EthosCpc.Cvc5.BvGauss

open Library.LinearMod (System)

/-! ## Integers -/

def modAdd (x y m : Int) : Int := (x + y) % m

def modMultiply (x y m : Int) : Int := (x * y) % m

def modInverse (x m : Int) : Int := if Int.gcd x m = 1 then Int.gcdA x m % m else -1

/-! ## Rows -/

/-- An entry is reduced modulo `prime`. -/
def reduceEntry (prime : Int) (s : System) (j k : Nat) : System :=
  { s with lhs := Function.update s.lhs j (Function.update (s.lhs j) k (s.lhs j k % prime)) }

/-- Two rows are exchanged. -/
def swapRows (s : System) (j k : Nat) : System where
  rhs i := s.rhs (if i = j then k else if i = k then j else i)
  lhs i := s.lhs (if i = j then k else if i = k then j else i)

/-- The entries of row `j` from column `pcol` on and its right-hand side are changed. -/
def mapRow (s : System) (j pcol ncols : Nat) (f : Nat → Int → Int) (g : Int → Int) : System where
  rhs := Function.update s.rhs j (g (s.rhs j))
  lhs := Function.update s.lhs j fun k =>
    if pcol ≤ k ∧ k < ncols then f k (s.lhs j k) else s.lhs j k

/-! ## Pivots -/

/-- The rows from `k` on are searched for a pivot, which is exchanged with row `j`. -/
def searchPivot (prime : Int) (pcol j : Nat) : Nat → Nat → System → System
  | 0, _, s => s
  | n + 1, k, s =>
    let s := reduceEntry prime s k pcol
    if s.lhs k pcol ≠ 0 then swapRows s j k else searchPivot prime pcol j n (k + 1) s

/-- The loop that skips columns without a pivot; `left` columns are to the right of `pcol`. -/
def findPivot (prime : Int) (nrows prow : Nat) : Nat → Nat → System → Nat × System
  | 0, pcol, s =>
    if s.lhs prow pcol = 0 then
      (pcol, searchPivot prime pcol prow (nrows - (prow + 1)) (prow + 1) s)
    else (pcol, s)
  | left + 1, pcol, s =>
    if s.lhs prow pcol = 0 then
      let s := searchPivot prime pcol prow (nrows - (prow + 1)) (prow + 1) s
      if s.lhs prow pcol = 0 then
        findPivot prime nrows prow left (pcol + 1)
          (if s.lhs prow (pcol + 1) ≠ 0 then reduceEntry prime s prow (pcol + 1) else s)
      else (pcol, s)
    else (pcol, s)

/-- The steps (1) and (2) for row `j`.  There is no result if an inverse is missing. -/
def eliminateRow (prime : Int) (ncols prow pcol j : Nat) (s : System) : Option System :=
  if s.lhs j pcol ≠ 0 then
    if s.lhs j pcol ≠ 1 then
      let inv := modInverse (s.lhs j pcol) prime
      if inv = -1 then none
      else if j ≤ prow then
        some (mapRow s j pcol ncols (fun _ e => modMultiply e inv prime)
          fun e => modMultiply e inv prime)
      else
        some (mapRow s j pcol ncols
          (fun k e => modAdd (modMultiply e inv prime) (-s.lhs prow k) prime)
          fun e => modAdd (modMultiply e inv prime) (-s.rhs prow) prime)
    else if j ≠ prow then
      some (mapRow s j pcol ncols (fun k e => modAdd e (-s.lhs prow k) prime)
        fun e => modAdd e (-s.rhs prow) prime)
    else some s
  else some s

def pivotRow (prime : Int) (nrows ncols prow pcol : Nat) (s : System) : Option (Nat × System) :=
  let found := findPivot prime nrows prow (ncols - 1 - pcol) pcol (reduceEntry prime s prow pcol)
  (eliminateRow prime ncols prow found.1 prow found.2).map fun s => (found.1, s)

/-- The loop over the rows, from row `j` on. -/
def rowsBelow (prime : Int) (ncols prow pcol : Nat) : Nat → Nat → System → Option System
  | 0, _, s => some s
  | n + 1, j, s => do
      let s ← eliminateRow prime ncols prow pcol j (reduceEntry prime s j pcol)
      rowsBelow prime ncols prow pcol n (j + 1) s

/-- The step (3) for row `j`. -/
def clearRow (prime : Int) (ncols prow pcol j : Nat) (s : System) : System :=
  let mul := s.lhs j pcol
  if mul ≠ 0 then
    mapRow s j pcol ncols (fun k e => modAdd e (-s.lhs prow k * mul) prime)
      fun e => modAdd e (-s.rhs prow * mul) prime
  else s

/-- The step (3), from row `j` on. -/
def rowsAbove (prime : Int) (ncols prow pcol : Nat) : Nat → Nat → System → System
  | 0, _, s => s
  | n + 1, j, s => rowsAbove prime ncols prow pcol n (j + 1) (clearRow prime ncols prow pcol j s)

/-- The loop over the pivots, with the number of rows from `prow` on. -/
def eliminate (prime : Int) (nrows ncols : Nat) : Nat → Nat → Nat → System → Option System
  | 0, _, _, s => some s
  | n + 1, pcol, prow, s =>
    if pcol < ncols then do
      let (pcol, s) ← pivotRow prime nrows ncols prow pcol s
      let s ← rowsBelow prime ncols prow pcol (nrows - (prow + 1)) (prow + 1) s
      eliminate prime nrows ncols n (pcol + 1) (prow + 1) (rowsAbove prime ncols prow pcol prow 0 s)
    else some s

/-! ## The result -/

/-- `BVGauss::Result`, without `INVALID`. -/
inductive Result
  | unique | partialResult | noSolution
  deriving DecidableEq, Repr

/-- The column of the first entry that is not zero, from `pcol` on. -/
def leading (s : System) (i : Nat) : Nat → Nat → Nat
  | 0, pcol => pcol
  | n + 1, pcol => if s.lhs i pcol = 0 then leading s i n (pcol + 1) else pcol

/-- The entries of row `i` from column `j` on are reduced, and `ispart` is set if there is one to
the right of the leading one. -/
def reduceRow (prime : Int) (i pcol : Nat) : Nat → Nat → System → Bool → System × Bool
  | 0, _, s, ispart => (s, ispart)
  | n + 1, j, s, ispart =>
    let s := if prime ≤ s.lhs i j ∨ s.lhs i j ≤ -prime then reduceEntry prime s i j else s
    reduceRow prime i pcol n (j + 1) s (if pcol < j ∧ s.lhs i j ≠ 0 then true else ispart)

/-- The loop over the rows after the elimination. -/
def finish (prime : Int) (ncols : Nat) : Nat → Nat → System → Bool → Result × System
  | 0, _, s, ispart => (if ispart then .partialResult else .unique, s)
  | n + 1, i, s, ispart =>
    let pcol := leading s i (ncols - i) i
    if ncols ≤ pcol then
      let s := { s with rhs := Function.update s.rhs i (s.rhs i % prime) }
      if s.rhs i ≠ 0 then (.noSolution, s) else finish prime ncols n (i + 1) s ispart
    else
      let reduced := reduceRow prime i pcol (ncols - i) i s ispart
      finish prime ncols n (i + 1) reduced.1 reduced.2

/-- `BVGauss::gaussElim`.  `INVALID` is no result. -/
def gaussElim (prime : Int) (nrows ncols : Nat) (s : System) : Option (Result × System) :=
  if prime = 1 then some (.unique, ⟨fun _ => 0, fun _ _ => 0⟩)
  else do
    let s ← eliminate prime nrows ncols nrows 0 0 s
    pure (finish prime ncols nrows 0 s false)

end EthosCpc.Cvc5.BvGauss
