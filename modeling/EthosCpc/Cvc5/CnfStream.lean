import Mathlib.Logic.Function.Basic

/-!
# Conversion to clauses

`CnfStream` in `prop/cnf_stream.cpp`.  A top-level formula is clausified by its
connective; below, every node gets a literal that its clauses define.  The state
holds both maps, the clauses that were added, and the next variable of the SAT
solver.

Atoms are theory atoms and Boolean variables.  A failed assertion, a lookup of a
node without literal and an insertion of a key that is there have no result.
The registrar does not call back.
-/

namespace EthosCpc.Cvc5

/-! ## Formulas -/

/-- Connectives with any number of children. -/
inductive CnfNary
  | and | or
  deriving DecidableEq, Repr

/-- Connectives with two children.  `equal` is equality of formulas. -/
inductive CnfBinary
  | xor | implies | equal
  deriving DecidableEq, Repr

/-- Boolean nodes.  Equalities of other types are atoms. -/
inductive CnfNode (α : Type)
  | const (b : Bool)
  | atom (a : α)
  | not (f : CnfNode α)
  | nary (k : CnfNary) (fs : List (CnfNode α))
  | binary (k : CnfBinary) (f g : CnfNode α)
  | ite (c f g : CnfNode α)

variable {α : Type}

namespace CnfNode

section Decidable

variable [DecidableEq α]

mutual

/-- Equality of formulas is decided child by child. -/
def decEq (f g : CnfNode α) : Decidable (f = g) :=
  match f, g with
  | .const b, .const c => decidable_of_iff (b = c) (by simp)
  | .atom a, .atom b => decidable_of_iff (a = b) (by simp)
  | .not f, .not g =>
    have := decEq f g
    decidable_of_iff (f = g) (by simp)
  | .nary k fs, .nary k' gs =>
    have := decEqList fs gs
    decidable_of_iff (k = k' ∧ fs = gs) (by simp)
  | .binary k f f', .binary k' g g' =>
    have := decEq f g
    have := decEq f' g'
    decidable_of_iff (k = k' ∧ f = g ∧ f' = g') (by simp)
  | .ite c f f', .ite d g g' =>
    have := decEq c d
    have := decEq f g
    have := decEq f' g'
    decidable_of_iff (c = d ∧ f = g ∧ f' = g') (by simp)
  | .const _, .atom _ | .const _, .not _ | .const _, .nary _ _ | .const _, .binary _ _ _
  | .const _, .ite _ _ _ | .atom _, .const _ | .atom _, .not _ | .atom _, .nary _ _
  | .atom _, .binary _ _ _ | .atom _, .ite _ _ _ | .not _, .const _ | .not _, .atom _
  | .not _, .nary _ _ | .not _, .binary _ _ _ | .not _, .ite _ _ _ | .nary _ _, .const _
  | .nary _ _, .atom _ | .nary _ _, .not _ | .nary _ _, .binary _ _ _ | .nary _ _, .ite _ _ _
  | .binary _ _ _, .const _ | .binary _ _ _, .atom _ | .binary _ _ _, .not _
  | .binary _ _ _, .nary _ _ | .binary _ _ _, .ite _ _ _ | .ite _ _ _, .const _
  | .ite _ _ _, .atom _ | .ite _ _ _, .not _ | .ite _ _ _, .nary _ _
  | .ite _ _ _, .binary _ _ _ => isFalse (by simp)

/-- Equality of lists of formulas. -/
def decEqList : (fs gs : List (CnfNode α)) → Decidable (fs = gs)
  | [], [] => isTrue rfl
  | [], _ :: _ | _ :: _, [] => isFalse (by simp)
  | f :: fs, g :: gs =>
    have := decEq f g
    have := decEqList fs gs
    decidable_of_iff (f = g ∧ fs = gs) (by simp)

end

instance : DecidableEq (CnfNode α) := decEq

end Decidable

/-- The children of a node, in the order of the source. -/
def children : CnfNode α → List (CnfNode α)
  | .const _ | .atom _ => []
  | .not f => [f]
  | .nary _ fs => fs
  | .binary _ f g => [f, g]
  | .ite c f g => [c, f, g]

mutual

/-- The number of nodes, where shared nodes count as often as they occur. -/
def size : CnfNode α → Nat
  | .const _ | .atom _ => 1
  | .not f => f.size + 1
  | .nary _ fs => sizes fs + 1
  | .binary _ f g => f.size + g.size + 1
  | .ite c f g => c.size + f.size + g.size + 1

def sizes : List (CnfNode α) → Nat
  | [] => 0
  | f :: fs => f.size + sizes fs

end

end CnfNode

/-! ## State -/

/-- Literals of the SAT solver. -/
structure SatLiteral where
  var : Nat
  negated : Bool
  deriving DecidableEq, Repr

/-- `~`. -/
def SatLiteral.neg (l : SatLiteral) : SatLiteral := ⟨l.var, !l.negated⟩

/-- The variables that the SAT solver fixes. -/
def trueVar : Nat := 0
def falseVar : Nat := 1

inductive FormulaLitPolicy
  | trackAndNotify | trackAndNotifyVar | track | internal
  deriving DecidableEq, Repr

/-- The state of the stream, with the clauses that it added and whether they are removable. -/
structure CnfStream (α : Type) where
  nextVar : Nat
  clauses : List (List SatLiteral × Bool)
  booleanVariables : List α
  notifyFormulas : List (CnfNode α)
  nodeToLiteral : CnfNode α → Option SatLiteral
  literalToNode : SatLiteral → Option (CnfNode α)
  removable : Bool

/-- A new stream, with a SAT solver that has the fixed variables only. -/
def CnfStream.init : CnfStream α where
  nextVar := 2
  clauses := []
  booleanVariables := []
  notifyFormulas := []
  nodeToLiteral := fun _ => none
  literalToNode := fun _ => none
  removable := false

abbrev CnfM (α : Type) := StateT (CnfStream α) Option

def CnfStream.hasLiteral (s : CnfStream α) (n : CnfNode α) : Bool := (s.nodeToLiteral n).isSome

def getLiteral (n : CnfNode α) : CnfM α SatLiteral :=
  fun s => (s.nodeToLiteral n).map fun l => (l, s)

def getLiterals : List (CnfNode α) → CnfM α (List SatLiteral)
  | [] => pure []
  | n :: ns => do
      let l ← getLiteral n
      let ls ← getLiterals ns
      pure (l :: ls)

/-- `newVar` of the SAT solver. -/
def newVar : CnfM α Nat := fun s => some (s.nextVar, { s with nextVar := s.nextVar + 1 })

/-- The stream with one clause more, without repeated literals. -/
def CnfStream.addClause (s : CnfStream α) (c : List SatLiteral) : CnfStream α :=
  { s with clauses := (c.eraseDups, s.removable) :: s.clauses }

def assertClause (c : List SatLiteral) : CnfM α Unit := modify (·.addClause c)

def assertClauses : List (List SatLiteral) → CnfM α Unit
  | [] => pure ()
  | c :: cs => do
      assertClause c
      assertClauses cs

/-- `setRemovable`, the assignments to `d_removable`. -/
def setRemovable (b : Bool) : CnfM α Unit := modify fun s => { s with removable := b }

/-! ## Literals of nodes -/

section Stream

variable [DecidableEq α]

def insertNode (n : CnfNode α) (l : SatLiteral) : CnfM α Unit := fun s =>
  if s.hasLiteral n then none
  else some ((), { s with nodeToLiteral := Function.update s.nodeToLiteral n (some l) })

def insertLiteral (l : SatLiteral) (n : CnfNode α) : CnfM α Unit := fun s =>
  if (s.literalToNode l).isSome then none
  else some ((), { s with literalToNode := Function.update s.literalToNode l (some n) })

/-- `insert_safe`: a literal that is in the map keeps its node. -/
def insertLiteralSafe (l : SatLiteral) (n : CnfNode α) : CnfM α Unit := modify fun s =>
  if (s.literalToNode l).isSome then s
  else { s with literalToNode := Function.update s.literalToNode l (some n) }

def ensureMappingForLiteral (n : CnfNode α) : CnfM α Unit := do
  let lit ← getLiteral n
  let s ← get
  if (s.literalToNode lit).isSome then pure ()
  else do
    insertLiteral lit n
    insertLiteral lit.neg (.not n)

/-- The literal that `newLiteral` makes for a node: constants have the fixed variables. -/
def makeLiteral : CnfNode α → CnfM α SatLiteral
  | .const true => pure ⟨trueVar, false⟩
  | .const false => pure ⟨falseVar, false⟩
  | _ => do
      let x ← newVar
      pure ⟨x, false⟩

/-- The literal of a node, which is made and inserted for both signs if there is none. -/
def nodeLiteral (node : CnfNode α) : CnfM α SatLiteral := do
  let s ← get
  if s.hasLiteral node then getLiteral node
  else do
    let lit ← makeLiteral node
    insertNode node lit
    insertNode (.not node) lit.neg
    pure lit

/-- The node of a literal and of its negation, for back queries. -/
def storeLiteral (lit : SatLiteral) (node : CnfNode α) : CnfM α Unit := do
  insertLiteralSafe lit node
  insertLiteralSafe lit.neg (.not node)

variable (flitPolicy : FormulaLitPolicy) (isInternalBoolVar : α → Bool)

def newLiteral (node : CnfNode α) (isTheoryAtom : Bool) : CnfM α SatLiteral := do
  let notify := !isTheoryAtom && flitPolicy = .trackAndNotify
  modify fun s => if notify then { s with notifyFormulas := s.notifyFormulas.insert node } else s
  let lit ← nodeLiteral node
  if isTheoryAtom || notify || flitPolicy = .track || flitPolicy = .trackAndNotifyVar then do
    storeLiteral lit node
    pure lit
  else pure lit

/-- `convertAtom`, for atoms and constants. -/
def convertAtom (node : CnfNode α) : CnfM α SatLiteral := do
  let s ← get
  if s.hasLiteral node then failure
  else
    match node with
    | .atom a =>
      if isInternalBoolVar a then do
        modify fun s => { s with booleanVariables := s.booleanVariables ++ [a] }
        newLiteral flitPolicy node (flitPolicy = .trackAndNotifyVar)
      else newLiteral flitPolicy node true
    | node => newLiteral flitPolicy node true

/-! ## Definitions of literals -/

def handleXor (f g : CnfNode α) : CnfM α Unit := do
  let a ← getLiteral f
  let b ← getLiteral g
  let xorLit ← newLiteral flitPolicy (.binary .xor f g) false
  assertClauses [[a, b, xorLit.neg], [a.neg, b.neg, xorLit.neg], [a, b.neg, xorLit],
    [a.neg, b, xorLit]]

def handleOr (fs : List (CnfNode α)) : CnfM α Unit := do
  let orLit ← newLiteral flitPolicy (.nary .or fs) false
  let clause ← getLiterals fs
  assertClauses (clause.map fun l => [orLit, l.neg])
  assertClause (clause ++ [orLit.neg])

def handleAnd (fs : List (CnfNode α)) : CnfM α Unit := do
  let andLit ← newLiteral flitPolicy (.nary .and fs) false
  let lits ← getLiterals fs
  let clause := lits.map SatLiteral.neg
  assertClauses (clause.map fun l => [andLit.neg, l.neg])
  assertClause (clause ++ [andLit])

def handleImplies (f g : CnfNode α) : CnfM α Unit := do
  let a ← getLiteral f
  let b ← getLiteral g
  let impliesLit ← newLiteral flitPolicy (.binary .implies f g) false
  assertClauses [[impliesLit.neg, a.neg, b], [a, impliesLit], [b.neg, impliesLit]]

def handleIff (f g : CnfNode α) : CnfM α Unit := do
  let a ← getLiteral f
  let b ← getLiteral g
  let iffLit ← newLiteral flitPolicy (.binary .equal f g) false
  assertClauses [[a.neg, b, iffLit.neg], [a, b.neg, iffLit.neg], [a.neg, b.neg, iffLit],
    [a, b, iffLit]]

def handleIte (c f g : CnfNode α) : CnfM α Unit := do
  let condLit ← getLiteral c
  let thenLit ← getLiteral f
  let elseLit ← getLiteral g
  let iteLit ← newLiteral flitPolicy (.ite c f g) false
  assertClauses [[iteLit.neg, thenLit, elseLit], [iteLit.neg, condLit.neg, thenLit],
    [iteLit.neg, condLit, elseLit], [iteLit, thenLit.neg, elseLit.neg],
    [iteLit, condLit.neg, thenLit.neg], [iteLit, condLit, elseLit.neg]]

/-- The second visit of a node, when its children have literals. -/
def handle (cur : CnfNode α) : CnfM α Unit := do
  let s ← get
  if s.hasLiteral cur then failure
  else
    match cur with
    | .not f => if s.hasLiteral f then pure () else failure
    | .nary .and fs => handleAnd flitPolicy fs
    | .nary .or fs => handleOr flitPolicy fs
    | .binary .xor f g => handleXor flitPolicy f g
    | .binary .implies f g => handleImplies flitPolicy f g
    | .binary .equal f g => handleIff flitPolicy f g
    | .ite c f g => handleIte flitPolicy c f g
    | cur => do
        let _ ← convertAtom flitPolicy isInternalBoolVar cur
        pure ()

/-- The traversal of `toCNF`: the stack, and for every node that was visited whether its children
are done.  A run of more than `fuel` steps has no result. -/
def toCNFLoop : Nat → List (CnfNode α) → (CnfNode α → Option Bool) → CnfM α Unit
  | _, [], _ => pure ()
  | 0, _ :: _, _ => failure
  | fuel + 1, cur :: visit, cache => do
      let s ← get
      if s.hasLiteral cur then toCNFLoop fuel visit cache
      else
        match cache cur with
        | none =>
          toCNFLoop fuel (cur.children ++ cur :: visit) (Function.update cache cur (some false))
        | some false => do
            handle flitPolicy isInternalBoolVar cur
            toCNFLoop fuel visit (Function.update cache cur (some true))
        | some true => toCNFLoop fuel visit cache

/-- `toCNF`.  Every occurrence of a node is visited at most twice. -/
def toCNF (node : CnfNode α) (negated : Bool) : CnfM α SatLiteral := do
  toCNFLoop flitPolicy isInternalBoolVar (2 * node.size) [node] fun _ => none
  let nodeLit ← getLiteral node
  pure (if negated then nodeLit.neg else nodeLit)

def toCNFs : List (CnfNode α) → Bool → CnfM α (List SatLiteral)
  | [], _ => pure []
  | n :: ns, negated => do
      let l ← toCNF flitPolicy isInternalBoolVar n negated
      let ls ← toCNFs ns negated
      pure (l :: ls)

/-! ## Assertions -/

/-- The clause of `convertAndAssertAnd` and `convertAndAssertOr`. -/
def convertAndAssertClause (fs : List (CnfNode α)) (negated : Bool) : CnfM α Unit := do
  let clause ← toCNFs flitPolicy isInternalBoolVar fs negated
  assertClause clause

def convertAndAssertXor (f g : CnfNode α) (negated : Bool) : CnfM α Unit := do
  let p ← toCNF flitPolicy isInternalBoolVar f false
  let q ← toCNF flitPolicy isInternalBoolVar g false
  if !negated then assertClauses [[p.neg, q.neg], [p, q]]
  else assertClauses [[p.neg, q], [p, q.neg]]

def convertAndAssertIff (f g : CnfNode α) (negated : Bool) : CnfM α Unit := do
  let p ← toCNF flitPolicy isInternalBoolVar f false
  let q ← toCNF flitPolicy isInternalBoolVar g false
  if !negated then assertClauses [[p.neg, q], [p, q.neg]]
  else assertClauses [[p.neg, q.neg], [p, q]]

/-- The clause of `convertAndAssertImplies`. -/
def convertAndAssertImplication (f g : CnfNode α) : CnfM α Unit := do
  let p ← toCNF flitPolicy isInternalBoolVar f false
  let q ← toCNF flitPolicy isInternalBoolVar g false
  assertClauses [[p.neg, q]]

def convertAndAssertIte (c f g : CnfNode α) (negated : Bool) : CnfM α Unit := do
  let p ← toCNF flitPolicy isInternalBoolVar c false
  let q ← toCNF flitPolicy isInternalBoolVar f negated
  let r ← toCNF flitPolicy isInternalBoolVar g negated
  assertClauses [[p.neg, q], [p, r]]

mutual

/-- `convertAndAssert`, with the branches of `convertAndAssertAnd`, `convertAndAssertOr` and
`convertAndAssertImplies` that assert the children. -/
def convertAndAssert (node : CnfNode α) (negated : Bool) : CnfM α Unit :=
  match node with
  | .nary .and fs =>
    if !negated then convertAndAssertEach fs false
    else convertAndAssertClause flitPolicy isInternalBoolVar fs true
  | .nary .or fs =>
    if !negated then convertAndAssertClause flitPolicy isInternalBoolVar fs false
    else convertAndAssertEach fs true
  | .binary .xor f g => convertAndAssertXor flitPolicy isInternalBoolVar f g negated
  | .binary .implies f g =>
    if !negated then convertAndAssertImplication flitPolicy isInternalBoolVar f g
    else do
      convertAndAssert f false
      convertAndAssert g true
  | .ite c f g => convertAndAssertIte flitPolicy isInternalBoolVar c f g negated
  | .not f => convertAndAssert f (!negated)
  | .binary .equal f g => convertAndAssertIff flitPolicy isInternalBoolVar f g negated
  | node => do
      let lit ← toCNF flitPolicy isInternalBoolVar node negated
      assertClause [lit]

def convertAndAssertEach (fs : List (CnfNode α)) (negated : Bool) : CnfM α Unit :=
  match fs with
  | [] => pure ()
  | f :: fs => do
      convertAndAssert f negated
      convertAndAssertEach fs negated

end

/-! ## Calls -/

/-- The node without a top-level negation. -/
def CnfNode.removeNot : CnfNode α → CnfNode α
  | .not f => f
  | n => n

/-- `ensureLiteral` on a node without literal.  Of these nodes, the atoms are not of the theory of
the Booleans or variables. -/
def ensureNewLiteral (n : CnfNode α) : CnfM α Unit :=
  match n with
  | .atom a => do
      let _ ← convertAtom flitPolicy isInternalBoolVar (.atom a)
      pure ()
  | n => do
      setRemovable false
      let lit ← toCNF flitPolicy isInternalBoolVar n false
      storeLiteral lit n

def ensureLiteral (n : CnfNode α) : CnfM α Unit := do
  let s ← get
  if s.hasLiteral n then ensureMappingForLiteral n
  else ensureNewLiteral flitPolicy isInternalBoolVar n.removeNot

/-- The calls on a stream. -/
inductive CnfCall (α : Type)
  | convertAndAssert (node : CnfNode α) (removable negated : Bool)
  | ensureLiteral (n : CnfNode α)

/-- What a call does. -/
def CnfCall.run : CnfCall α → CnfM α Unit
  | .convertAndAssert node removable negated => do
      setRemovable removable
      Cvc5.convertAndAssert flitPolicy isInternalBoolVar node negated
  | .ensureLiteral n => Cvc5.ensureLiteral flitPolicy isInternalBoolVar n

/-- A sequence of calls. -/
def runCalls : List (CnfCall α) → CnfM α Unit
  | [] => pure ()
  | c :: cs => do
      c.run flitPolicy isInternalBoolVar
      runCalls cs

end Stream

end EthosCpc.Cvc5
