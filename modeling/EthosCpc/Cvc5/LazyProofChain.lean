import Mathlib

/-!
# Chains of lazy proofs

`LazyCDProofChain::getProofFor` of `proof/lazy_proof_chain.cpp`, with `cyclic`
set.  A chain maps facts to generators.  Asking for the proof of a fact calls
the generators of the facts that its proof assumes, and of those that their
proofs assume, and in the end overwrites the `ASSUME` nodes of the links by the
proofs of the facts they assume.

A proof node is a pointer: the number of the generator call that allocated it
and its position in the proof that the call returned.  A generator returns a
proof whose nodes point to earlier nodes only.  Facts are ordered by `le`, a
parameter, since the order is that of node identifiers.
-/

namespace EthosCpc.Cvc5

/-! ## Proof nodes -/

/-- The rules that are told apart. -/
inductive ProofRule
  | assume | scope | step (id : Nat)
  deriving DecidableEq, Repr

/-- A proof node with children of type `P`. -/
structure ProofNode (F P : Type) where
  rule : ProofRule
  children : List P
  args : List F
  result : F
  deriving DecidableEq, Repr

/-- The children renamed. -/
def ProofNode.mapChildren {F P Q : Type} (f : P → Q) (n : ProofNode F P) : ProofNode F Q :=
  ⟨n.rule, n.children.map f, n.args, n.result⟩

/-- A proof of a fact as a generator returns it: its nodes, each pointing to earlier ones, with
the root last. -/
structure FreshProof (F : Type) (fact : F) where
  nodes : List (ProofNode F Nat)
  earlier : ∀ (i : Nat) (n : ProofNode F Nat), nodes[i]? = some n → ∀ c ∈ n.children, c < i
  assumed : ∀ (i : Nat) (n : ProofNode F Nat), nodes[i]? = some n → n.rule = .assume →
    n.children = [] ∧ n.args = [n.result]
  root : ∃ n : ProofNode F Nat, nodes[nodes.length - 1]? = some n ∧ n.result = fact

variable {F : Type} [DecidableEq F]

/-- The free assumptions below a node and the `ASSUME` nodes of each. -/
def freeLeavesRec (nodes : List (ProofNode F Nat)) : Nat → Nat → List (F × Nat)
  | 0, _ => []
  | d + 1, i =>
    match nodes[i]? with
    | none => []
    | some n =>
      match n.rule with
      | .assume => [(n.result, i)]
      | .scope => (n.children.flatMap (freeLeavesRec nodes d)).filter fun a => a.1 ∉ n.args
      | .step _ => n.children.flatMap (freeLeavesRec nodes d)

/-- The position of the root. -/
def FreshProof.rootIdx {f : F} (p : FreshProof F f) : Nat := p.nodes.length - 1

/-- `expr::getFreeAssumptionsMap`. -/
def FreshProof.freeLeaves {f : F} (p : FreshProof F f) : List (F × Nat) :=
  (freeLeavesRec p.nodes p.nodes.length p.rootIdx).dedup

/-- The keys of the map, in order. -/
def FreshProof.assumptions {f : F} (le : F → F → Bool) (p : FreshProof F f) : List F :=
  (p.freeLeaves.map Prod.fst).dedup.insertionSort fun a b => le a b

/-! ## The traversal -/

/-- A pointer: the call that allocated the node, and its position. -/
abbrev ProofPtr := Nat × Nat

/-- The state of the traversal; `calls` are the facts whose generators were called, in order. -/
structure ChainState (F : Type) where
  calls : List F
  toConnect : AList fun _ : F => ProofPtr
  toExpand : F → List ProofPtr
  visit : List F
  visited : AList fun _ : F => Bool

variable (le : F → F → Bool) (gens : AList (FreshProof F))

/-- A link that is being expanded: connected and not visited after its assumptions. -/
def ChainState.inProgress (s : ChainState F) (f : F) : Bool :=
  (s.toConnect.lookup f).isSome && !((s.visited.lookup f).getD false)

/-- Append the assumption nodes of a link to those to expand. -/
def addToExpand (toExpand : F → List ProofPtr) (call : Nat) (leaves : List (F × Nat)) :
    F → List ProofPtr :=
  fun g => toExpand g ++ (leaves.filter fun a => a.1 = g).map fun a => (call, a.2)

/-- A fact seen for the first time whose generator returned a proof. -/
def ChainState.expand (s : ChainState F) (cur : F) (rest : List F)
    (p : FreshProof F cur) : ChainState F :=
  let call := s.calls.length
  let calls := s.calls ++ [cur]
  match p.freeLeaves.find? fun a => a.1 = cur with
  | some a =>
    -- a trivial cycle: connect to one of its own assumption nodes
    ⟨calls, s.toConnect.insert cur (call, a.2), s.toExpand, rest, s.visited.insert cur true⟩
  | none =>
    match (p.assumptions le).find? s.inProgress with
    | some a =>
      ⟨calls, (s.toConnect.erase a).erase cur, s.toExpand, rest, s.visited⟩
    | none =>
      ⟨calls, s.toConnect.insert cur (call, p.rootIdx), addToExpand s.toExpand call p.freeLeaves,
        (p.assumptions le).reverse ++ cur :: rest, s.visited.insert cur false⟩

/-- One round of the loop. -/
def ChainState.step (s : ChainState F) : ChainState F :=
  match s.visit with
  | [] => s
  | cur :: rest =>
    match s.visited.lookup cur with
    | some _ => { s with visit := rest, visited := s.visited.insert cur true }
    | none =>
      match gens.lookup cur with
      | none => { s with visit := rest, visited := s.visited.insert cur true }
      | some p => s.expand le cur rest p

/-- The state before the loop. -/
def ChainState.init (fact : F) : ChainState F := ⟨[], ∅, fun _ => [], [fact], ∅⟩

/-- The state after a number of rounds. -/
def ChainState.after (fact : F) (n : Nat) : ChainState F :=
  (ChainState.step le gens)^[n] (.init fact)

/-! ## Connecting the links -/

def callMemory (calls : List F) (q : ProofPtr) : Option (ProofNode F ProofPtr) :=
  calls[q.1]?.bind fun f => (gens.lookup f).bind fun p =>
    (p.nodes[q.2]?).map (ProofNode.mapChildren fun c => (q.1, c))

/-- `ProofNodeManager::updateNode`. -/
def updateNode (mem : ProofPtr → Option (ProofNode F ProofPtr)) (pn pnr : ProofPtr) :
    ProofPtr → Option (ProofNode F ProofPtr) :=
  match mem pn, mem pnr with
  | some n, some r => if n.result = r.result then Function.update mem pn (some r) else mem
  | _, _ => mem

/-- Overwrite the assumption nodes of one fact. -/
def connectFact (toExpand : F → List ProofPtr) (mem : ProofPtr → Option (ProofNode F ProofPtr))
    (link : Σ _ : F, ProofPtr) : ProofPtr → Option (ProofNode F ProofPtr) :=
  (toExpand link.1).foldl (fun m pn => updateNode m pn link.2) mem

/-- The memory after connecting all links. -/
def ChainState.connect (s : ChainState F) : ProofPtr → Option (ProofNode F ProofPtr) :=
  s.toConnect.entries.foldl (connectFact s.toExpand) (callMemory gens s.calls)

/-- `LazyCDProofChain::getProofFor`: the memory and the pointer returned, when the loop ends
within the given number of rounds. -/
def getProofFor (fact : F) (n : Nat) :
    Option ((ProofPtr → Option (ProofNode F ProofPtr)) × Option ProofPtr) :=
  let s := ChainState.after le gens fact n
  if s.visit = [] then some (s.connect gens, s.toConnect.lookup fact) else none

end EthosCpc.Cvc5
