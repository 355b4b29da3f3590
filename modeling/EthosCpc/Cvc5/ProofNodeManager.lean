import EthosCpc.Cvc5.FreeAssumptions
import EthosCpc.Cvc5.Node

/-!
# Closing a proof in cvc5

`mkScope` of `proof/proof_node_manager.cpp`, with what it calls of
`ProofNodeManager` (`mkNode`, `mkAssume`, `updateNode`, `checkInternal`) and the
cases of the proof checker for the rules that it applies.

A free assumption that is no argument of the scope is connected to one by
symmetry or by rewriting, or is justified because it rewrites to true.  In each
case the leaves of the proof are overwritten in place.
-/

namespace EthosCpc.Cvc5.ProofNodes

/-- What the manager is given: a rewriter, the original forms of skolems, the checkers of other
rules, whether results are checked at once, and the orders of the containers. -/
structure Env where
  rewrite : Node → Node
  rewrite_rewrite : ∀ a, rewrite (rewrite a) = rewrite a
  getOriginalForm : Node → Node
  getOriginalForm_true : getOriginalForm (.constBoolean true) = .constBoolean true
  checkOther : Nat → List Node → List Node → Option Node
  lazyCheck : Bool
  /-- The order in which an `unordered_set` is traversed. -/
  hashOrder : List Node → List Node
  hashOrder_perm : ∀ ns, (hashOrder ns).Perm ns
  /-- The order of the keys of a `std::map`. -/
  lt : Node → Node → Bool

def getSymmFact : Node → Option Node
  | .app .not [.app .equal [a, b]] => if a = b then none else some (.app .not [.app .equal [b, a]])
  | .app .equal [a, b] => if a = b then none else some (.app .equal [b, a])
  | _ => none

/-- The checker of `SYMM`. -/
def symmConclusion : Node → Option Node
  | .app .not [.app .equal [a, b]] => some (.app .not [.app .equal [b, a]])
  | .app .equal [a, b] => some (.app .equal [b, a])
  | _ => none

/-- The conjunction of assumptions. -/
def mkAnd : List Node → Node
  | [a] => a
  | as => .app .and as

/-- What a `SCOPE` proves. -/
def scopeConclusion (args : List Node) (conc : Node) : Node :=
  if conc = .constBoolean false then .app .not [mkAnd args]
  else .app .implies [mkAnd args, conc]

namespace Env

variable (env : Env)

/-- The conclusion that the proof checker computes. -/
def conclusion : ProofRule → List Node → List Node → Option Node
  | .assume, [], [f] => some f
  | .scope, [conc], args => some (if args = [] then conc else scopeConclusion args conc)
  | .symm, [c], [] => symmConclusion c
  | .macroSrPredIntro, [], [a] =>
    if env.rewrite (env.getOriginalForm (env.rewrite a)) = .constBoolean true then some a
    else none
  | .macroSrPredTransform, [c], [a] =>
    let res1 := env.rewrite c
    let res2 := env.rewrite a
    if res1 = res2 then some a
    else if env.rewrite (env.getOriginalForm res1) = env.rewrite (env.getOriginalForm res2) then
      some a
    else none
  | .other id, cs, args => env.checkOther id cs args
  | _, _, _ => none

/-- `checkInternal`.  A check that fails is fatal. -/
def checkInternal (h : Heap Node) (id : ProofRule) (children : List Nat) (args : List Node)
    (expected : Option Node) : Option Node :=
  match expected with
  | some e =>
    if env.lazyCheck then some e
    else do
      let res ← env.conclusion id (children.map fun c => (h.node c).proven) args
      if res = e then some res else none
  | none => env.conclusion id (children.map fun c => (h.node c).proven) args

def mkNode (h : Heap Node) (id : ProofRule) (children : List Nat) (args : List Node)
    (expected : Option Node) : Option (Nat × Heap Node) := do
  let res ← env.checkInternal h id children args expected
  pure (h.size, ⟨h.size + 1, Function.update h.node h.size ⟨id, children, args, res⟩⟩)

def mkAssume (h : Heap Node) (fact : Node) : Option (Nat × Heap Node) :=
  env.mkNode h .assume [] [fact] (some fact)

def updateNode (h : Heap Node) (pn : Nat) (id : ProofRule) (children : List Nat)
    (args : List Node) : Option (Heap Node) := do
  let res ← env.checkInternal h id children args (some (h.node pn).proven)
  if res = (h.node pn).proven then
    pure { h with node := Function.update h.node pn ⟨id, children, args, (h.node pn).proven⟩ }
  else none

/-- `updateNode` for all leaves of one assumption. -/
def updateNodes (h : Heap Node) (pfs : List Nat) (id : ProofRule) (children : List Nat)
    (args : List Node) : Option (Heap Node) :=
  pfs.foldlM (fun h pn => env.updateNode h pn id children args) h

/-! ## Matching free assumptions -/

/-- How a free assumption is dealt with. -/
inductive Cover
  | covered | symm (aMatch : Node) | trivial | transform (aMatch : Node) | unmatched
  deriving DecidableEq

/-- `acr.find`: of the assumptions with this rewritten form the last one was entered. -/
def acrFind (ac : List Node) (ar : Node) : Option Node :=
  (env.hashOrder ac).reverse.find? fun acc => env.rewrite acc = ar

/-- The case distinction of the loop over the free assumptions. -/
def cover (ac : List Node) (a : Node) : Cover :=
  if a ∈ ac then .covered
  else
    match (getSymmFact a).filter fun aeqSym => aeqSym ∈ ac with
    | some aeqSym => .symm aeqSym
    | none =>
      if env.rewrite a = .constBoolean true then .trivial
      else
        match env.acrFind ac (env.rewrite a) with
        | some acc => .transform acc
        | none => .unmatched

/-- One round of the loop over the free assumptions.  The leaf that is made is an `ASSUME`, so
nothing has to be shortened for it. -/
def connect (ac : List Node) (ensureClosed : Bool) (st : Heap Node × List Node)
    (fa : Node × List Nat) : Option (Heap Node × List Node) :=
  match env.cover ac fa.1 with
  | .covered => some (st.1, st.2.insert fa.1)
  | .trivial => do
      let h ← env.updateNodes st.1 fa.2 .macroSrPredIntro [] [fa.1]
      pure (h, st.2.insert fa.1)
  | .symm aMatch => do
      let (pfaa, h) ← env.mkAssume st.1 aMatch
      let h ← env.updateNodes h fa.2 .symm [pfaa] []
      pure (h, st.2.insert aMatch)
  | .transform aMatch => do
      let (pfaa, h) ← env.mkAssume st.1 aMatch
      let h ← env.updateNodes h fa.2 .macroSrPredTransform [pfaa] [fa.1]
      pure (h, st.2.insert aMatch)
  | .unmatched => if ensureClosed then none else some st

/-- The assumptions that are passed to `SCOPE`. -/
def scopeAssumps (assumps ac acu : List Node) (doMinimize : Bool) : List Node :=
  if doMinimize = true ∧ acu.length < ac.length then env.hashOrder acu
  else if ac.length < assumps.length then env.hashOrder ac
  else assumps

/-- `mkScope`: the node, the assumptions and the heap. -/
def mkScope (k : Nat) (h : Heap Node) (pf : Nat) (assumps : List Node) (ensureClosed doMinimize : Bool)
    (expected : Option Node) : Option (Nat × List Node × Heap Node) :=
  if ensureClosed = false ∧ doMinimize = false then do
    let (pn, h) ← env.mkNode h .scope [pf] assumps expected
    pure (pn, assumps, h)
  else do
    let ac := assumps.dedup
    let famap ← getFreeAssumptionsMap env.lt h k pf
    let (h, acu) ← famap.foldlM (env.connect ac ensureClosed) (h, [])
    let assumps := env.scopeAssumps assumps ac acu doMinimize
    if assumps = [] then pure (pf, assumps, h)
    else do
      let (pn, h) ←
        env.mkNode h .scope [pf] assumps (some (scopeConclusion assumps (h.node pf).proven))
      pure (pn, assumps, h)

end Env

end EthosCpc.Cvc5.ProofNodes
