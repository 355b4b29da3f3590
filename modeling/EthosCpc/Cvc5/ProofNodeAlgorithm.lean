import EthosCpc.Library.Loop
import Mathlib.Logic.Function.Basic

/-!
# Traversals of proofs in cvc5

`containsAssumption` of `proof/proof_node_algorithm.cpp`: does a proof contain
an assumption that is not allowed?  The traversal keeps a stack of nodes, where
a node stays below its children until these are done, and one flag for the
whole traversal.  It leaves answers in a cache that is handed on from call to
call.
-/

namespace EthosCpc.Cvc5.ProofNodes

open Library

/-- The rules that the algorithms tell apart. -/
inductive ProofRule
  | assume | scope | symm | macroSrPredIntro | macroSrPredTransform | other (id : Nat)
  deriving DecidableEq, Repr

structure ProofNode (F : Type) where
  rule : ProofRule
  children : List Nat
  args : List F
  proven : F
  deriving DecidableEq, Repr

variable {F : Type}

/-- The formula of an assumption, `getArguments()[0]`. -/
def ProofNode.assumed (n : ProofNode F) : F := n.args.headD n.proven

/-- Proof nodes on a heap without cycles.  `rank` bounds the length of the paths below a node, and
an assumption has no children. -/
structure Proofs (F : Type) where
  node : Nat → ProofNode F
  rank : Nat → Nat
  rank_lt : ∀ n, ∀ c ∈ (node n).children, rank c < rank n
  leaf : ∀ n, (node n).rule = .assume → (node n).children = []

namespace Proofs

variable (pf : Proofs F)

def Reach : Nat → Nat → Prop := Relation.ReflTransGen fun n m => m ∈ (pf.node n).children

end Proofs

/-! ## The traversal -/

/-- The variables of `containsAssumption`.  The first node of `visit` is the top of the stack. -/
structure Traversal where
  visited : Nat → Option Bool
  visit : List Nat
  caMap : Nat → Option Bool
  foundAssumption : Bool
  cur : Nat

variable [DecidableEq F] (pf : Proofs F) (allowed : List F)

/-- A node is taken from the stack. -/
def visitNode (c : Traversal) (cur : Nat) (rest : List Nat) : Traversal :=
  match c.caMap cur with
  | some b =>
    { c with visit := rest, foundAssumption := if b then true else c.foundAssumption, cur := cur }
  | none =>
    match c.visited cur with
    | none =>
      if (pf.node cur).rule = .assume then
        let ret := decide ((pf.node cur).assumed ∉ allowed)
        { c with
          visited := Function.update c.visited cur (some ret)
          visit := rest
          caMap := Function.update c.caMap cur (some ret)
          foundAssumption := ret
          cur := cur }
      else if c.foundAssumption = false then
        { c with
          visited := Function.update c.visited cur (some false)
          visit := (pf.node cur).children.reverse ++ cur :: rest
          cur := cur }
      else { c with visit := rest, cur := cur }
    | some false =>
      { c with
        visited := Function.update c.visited cur (some true)
        visit := rest
        caMap := Function.update c.caMap cur (some c.foundAssumption)
        cur := cur }
    | some true => { c with visit := rest, cur := cur }

/-- One round of the loop. -/
def step (c : Traversal) : Option Traversal :=
  match c.visit with
  | [] => none
  | cur :: rest => some (visitNode pf allowed c cur rest)

/-- The variables before the loop. -/
def start (pn : Nat) (caMap : Nat → Option Bool) : Traversal where
  visited := fun _ => none
  visit := [pn]
  caMap := caMap
  foundAssumption := false
  cur := pn

/-- The end of the traversal, `return caMap[cur]`.  An entry that is missing is made, with
`false`. -/
def answer (c : Traversal) : Bool × (Nat → Option Bool) :=
  let r := (c.caMap c.cur).getD false
  (r, Function.update c.caMap c.cur (some r))

/-- `containsAssumption`, with a bound on the number of rounds: the answer and the cache. -/
def containsAssumption (k pn : Nat) (caMap : Nat → Option Bool) :
    Option (Bool × (Nat → Option Bool)) :=
  (Loop.run (step pf allowed) k (start pn caMap)).map answer

/-! ## What the answer should be -/

/-- Below the node stands an assumption that is not allowed. -/
def Contains (n : Nat) : Prop :=
  ∃ m, pf.Reach n m ∧ (pf.node m).rule = .assume ∧ (pf.node m).assumed ∉ allowed

def CacheOk (caMap : Nat → Option Bool) : Prop :=
  ∀ n b, caMap n = some b → (b = true ↔ Contains pf allowed n)

/-- The call returns the correct answer and leaves a correct cache. -/
def Exact (pn : Nat) (caMap : Nat → Option Bool) : Prop :=
  ∃ k r caMap', containsAssumption pf allowed k pn caMap = some (r, caMap') ∧
    (r = true ↔ Contains pf allowed pn) ∧ CacheOk pf allowed caMap'

/-! ## The assignment of the flag -/

/-- The node on top of the stack is an allowed assumption without an entry, and the flag is set:
the round will clear it. -/
def Clears (c : Traversal) : Prop :=
  ∃ cur rest, c.visit = cur :: rest ∧ c.caMap cur = none ∧ c.visited cur = none ∧
    (pf.node cur).rule = .assume ∧ (pf.node cur).assumed ∈ allowed ∧ c.foundAssumption = true

/-- The node waits on the stack for its children. -/
def Pending (c : Traversal) (n : Nat) : Prop := c.caMap n = none ∧ c.visited n = some false

instance (c : Traversal) (n : Nat) : Decidable (Pending c n) :=
  inferInstanceAs (Decidable (_ ∧ _))

/-- The children of the innermost waiting node that are still to be visited, behind the one on top
of the stack. -/
def siblings (c : Traversal) : List Nat := c.visit.tail.takeWhile fun n => ¬ Pending c n

/-- If this round clears the flag, then one of the siblings to come sets it again. -/
def Restored (c : Traversal) : Prop :=
  Clears pf allowed c → ∃ m ∈ siblings c, Contains pf allowed m

end EthosCpc.Cvc5.ProofNodes
