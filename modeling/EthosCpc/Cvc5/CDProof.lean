import Mathlib.Data.List.Basic

/-!
# Context-dependent proofs in cvc5

`CDProof::getProofFor`, `getProofSymm`, `addStep`, `notifyNewProof`, `hasStep`
and `isAssumption` of `proof/proof.cpp`, with what they call of
`ProofNodeManager` (`mkNode`, `mkSymm`, `updateNode`, `cancelDoubleSymm`), for
the policy `ASSUME_ONLY` and with symmetry considered.

Proof nodes live on a heap, numbered in the order of their creation, and their
contents are overwritten in place.  The map from formulas to nodes is
backtracked: an entry carries the level of the context at which it was made.
-/

namespace EthosCpc.Cvc5.Cdp

/-- Formulas: equalities and disequalities of terms, and all others. -/
inductive Fact (T : Type)
  | eq (polarity : Bool) (a b : T) | other (p : T)
  deriving DecidableEq, Repr

/-- The rules of proofs: only `ASSUME` and `SYMM` matter here. -/
inductive Rule
  | assume | symm | other (id : Nat)
  deriving DecidableEq, Repr

structure ProofNode (T : Type) where
  rule : Rule
  children : List Nat
  args : List (Fact T)
  proven : Fact T
  deriving DecidableEq, Repr

variable {T : Type} [DecidableEq T]

def getSymmFact : Fact T → Option (Fact T)
  | .eq polarity a b => if a = b then none else some (.eq polarity b a)
  | .other _ => none

/-- A call of `addStep`.  An assumption has no premises, and a step of symmetry has one, the
symmetric formula; `checked` says whether the proof checker accepts the application. -/
structure Step (T : Type) [DecidableEq T] where
  expected : Fact T
  rule : Rule
  children : List (Fact T)
  args : List (Fact T)
  ensureChildren : Bool
  checked : Bool
  assume_ok : rule = .assume → children = [] ∧ args = [expected]
  symm_ok : rule = .symm → ∃ g, children = [g] ∧ getSymmFact g = some expected

/-- The heap of nodes, the map `d_nodes` with the level of each entry, and the level of the
context. -/
structure State (T : Type) where
  size : Nat
  heap : Nat → ProofNode T
  nodes : Fact T → Option (Nat × Nat)
  level : Nat

namespace State

variable (st : State T)

def getProof (f : Fact T) : Option Nat := (st.nodes f).map Prod.fst

def insert (f : Fact T) (n : Nat) : State T :=
  { st with nodes := Function.update st.nodes f (some (n, st.level)) }

def mkNode (node : ProofNode T) : Nat × State T :=
  (st.size, { st with size := st.size + 1, heap := Function.update st.heap st.size node })

/-- `updateNode`: what the node proves stays. -/
def updateNode (n : Nat) (rule : Rule) (children : List Nat) (args : List (Fact T)) : State T :=
  { st with heap := Function.update st.heap n ⟨rule, children, args, (st.heap n).proven⟩ }

/-- The first child of a node. -/
def child (n : Nat) : Nat := (st.heap n).children.headD n

def cancelDoubleSymm : Nat → Nat → Nat
  | 0, pn => pn
  | k + 1, pn =>
    if (st.heap pn).rule = .symm ∧ (st.heap (st.child pn)).rule = .symm then
      cancelDoubleSymm k (st.child (st.child pn))
    else pn

def isAssumption (pn : Nat) : Bool :=
  if (st.heap pn).rule = .assume then true
  else if (st.heap pn).rule ≠ .symm then false
  else
    let pn := st.cancelDoubleSymm (st.size + 1) pn
    if (st.heap pn).rule = .assume then true
    else if (st.heap pn).rule ≠ .symm then false
    else decide ((st.heap (st.child pn)).rule = .assume)

def mkSymm (pfs : Nat) (expected : Fact T) : Nat × State T :=
  if (st.heap pfs).rule = .symm then (st.child pfs, st)
  else st.mkNode ⟨.symm, [pfs], [], expected⟩

def getProofSymm (fact : Fact T) : Option Nat × State T :=
  match st.getProof fact with
  | some pf =>
    if st.isAssumption pf then
      match (getSymmFact fact).bind st.getProof with
      | some pfs =>
        if st.isAssumption pfs then (some pf, st)
        else (some pf, st.updateNode pf .symm [pfs] [])
      | none => (some pf, st)
    else (some pf, st)
  | none =>
    match (getSymmFact fact).bind st.getProof with
    | some pfs =>
      let (psym, st) := st.mkSymm pfs fact
      (some psym, st.insert fact psym)
    | none => (none, st)

/-- The assumption of a formula, entered into the map. -/
def addAssume (fact : Fact T) : Nat × State T :=
  let (pfa, st) := st.mkNode ⟨.assume, [], [fact], fact⟩
  (pfa, st.insert fact pfa)

def getProofFor (fact : Fact T) : Nat × State T :=
  match st.getProofSymm fact with
  | (some pf, st) => (pf, st)
  | (none, st) => st.addAssume fact

/-- `shouldOverwrite`, for the policy `ASSUME_ONLY`. -/
def shouldOverwrite (pn : Nat) (newId : Rule) : Bool :=
  st.isAssumption pn && decide (newId ≠ .assume)

def hasStep (fact : Fact T) : Bool :=
  (st.getProof fact).any (fun pf => !st.isAssumption pf) ||
    ((getSymmFact fact).bind st.getProof).any fun pf => !st.isAssumption pf

def notifyNewProof (expected : Fact T) : State T :=
  match getSymmFact expected with
  | some symExpected =>
    if (st.getProof symExpected).isSome then (st.getProofSymm symExpected).2 else st
  | none => st

def push : State T := { st with level := st.level + 1 }

/-- Pop a context: the entries made at its level go. -/
def pop : State T :=
  { st with
    level := st.level - 1
    nodes := fun f => (st.nodes f).filter fun e => decide (e.2 ≤ st.level - 1) }

end State

/-- The loop of `addStep` over the premises; it ends early at a premise that must be there. -/
def getChildren (ensureChildren : Bool) : List (Fact T) → State T → Option (List Nat) × State T
  | [], st => (some [], st)
  | c :: cs, st =>
    match st.getProofSymm c with
    | (some pc, st) =>
      let (pcs, st) := getChildren ensureChildren cs st
      (pcs.map (pc :: ·), st)
    | (none, st) =>
      if ensureChildren then (none, st)
      else
        let (pc, st) := st.addAssume c
        let (pcs, st) := getChildren ensureChildren cs st
        (pcs.map (pc :: ·), st)

/-- The end of `addStep`: create the node or update it. -/
def addNode (s : Step T) (pprev : Option Nat) (pchildren : List Nat) (st : State T) :
    Bool × State T :=
  if s.checked then
    match pprev with
    | none =>
      let (pthis, st) := st.mkNode ⟨s.rule, pchildren, s.args, s.expected⟩
      (true, (st.insert s.expected pthis).notifyNewProof s.expected)
    | some pthis =>
      (true, (st.updateNode pthis s.rule pchildren s.args).notifyNewProof s.expected)
  else (false, st)

def addStep (s : Step T) (st : State T) : Bool × State T :=
  let (pprev, st) := st.getProofSymm s.expected
  if pprev.any (fun p => !st.shouldOverwrite p s.rule) then (true, st)
  else
    match getChildren s.ensureChildren s.children st with
    | (none, st) => (false, st)
    | (some pchildren, st) =>
      if s.rule = .symm ∧ (pchildren.head?.any st.isAssumption) = true then (true, st)
      else addNode s pprev pchildren st

/-- What is done with a proof. -/
inductive Op (T : Type) [DecidableEq T]
  | addStep (s : Step T) | push | pop | getProofFor (fact : Fact T)

/-- The state after an operation. -/
def Op.exec : Op T → State T → State T
  | .addStep s, st => (Cdp.addStep s st).2
  | .push, st => st.push
  | .pop, st => st.pop
  | .getProofFor fact, st => (st.getProofFor fact).2

/-- The proof before anything is added. -/
def State.empty (fact : Fact T) : State T := ⟨0, fun _ => ⟨.assume, [], [], fact⟩, fun _ => none, 0⟩

/-- The state after operations. -/
def run (st : State T) (ops : List (Op T)) : State T := ops.foldl (fun st op => op.exec st) st

end EthosCpc.Cvc5.Cdp
