import Mathlib.Logic.Function.Basic
import Mathlib.Logic.Relation

/-!
# Printing proofs for Ethos

The class `EoPrinter`: the traversal of a proof in two passes, the first of which only
allocates identifiers (its commands go to a channel that collects terms), and the commands
of the second.  A proof is a directed acyclic graph, whose nodes are numbered so that
children have smaller numbers.  Rules other than `ASSUME` and `SCOPE`, and trusted steps,
are steps with the children that `getChildrenFromProofRule` returns; what a step prints besides
its identifier and its premises is left out.

Next to the identifier of a premise stands what it has to denote (`Fact`), which is not printed.
`replay` is what Ethos makes of identifiers and scopes.
-/

namespace EthosCpc.Cvc5.EoPrinter

variable {α : Type}

inductive ProofNode (α : Type)
  | assume (result : α)
  | scope (args : List α) (child : Nat) (result : α)
  | step (children : List Nat) (result : α)

def ProofNode.result : ProofNode α → α
  | .assume F => F
  | .scope _ _ F => F
  | .step _ F => F

def ProofNode.children : ProofNode α → List Nat
  | .assume _ => []
  | .scope _ c _ => [c]
  | .step cs _ => cs

def ProofNode.isAssume : ProofNode α → Bool
  | .assume _ => true
  | _ => false

structure Dag (α : Type) where
  node : Nat → ProofNode α
  children_lt : ∀ n, ∀ c ∈ (node n).children, c < n

/-- What an identifier denotes: a proof of a formula, or what remains of one after the rule
`scope` discharged an assumption. -/
inductive Fact (α : Type)
  | proves (F : α)
  | implies (F : α) (X : Fact α)
deriving DecidableEq

inductive Command (α : Type)
  | assume (id : Nat) (F : α)
  | assumePush (id : Nat) (F : α)
  | step (id : Nat) (premises : List (Nat × Fact α)) (result : α)
  | stepPop (id : Nat) (premise : Nat × Fact α)
deriving DecidableEq

/-- What `d_passumeCtx` pushes and pops. -/
structure Context (α : Type) where
  processingChildren : Nat → Option Bool
  alreadyPrinted : Nat → Bool
  passumeMap : α → Option Nat

structure State (α : Type) where
  pfIdCounter : Nat
  pletMap : Nat → Option Nat
  context : Context α
  saved : List (Context α)
  out : List (Command α)

namespace State

def push (s : State α) : State α := { s with saved := s.context :: s.saved }

def pop (s : State α) : State α :=
  match s.saved with
  | [] => s
  | c :: saved => { s with context := c, saved := saved }

def print (s : State α) (c : Command α) : State α := { s with out := s.out ++ [c] }

def setProcessing (s : State α) (n : Nat) (b : Bool) : State α :=
  { s with context :=
    { s.context with
      processingChildren := Function.update s.context.processingChildren n (some b) } }

def insertPrinted (s : State α) (n : Nat) : State α :=
  { s with context :=
    { s.context with alreadyPrinted := Function.update s.context.alreadyPrinted n true } }

end State

/-! ## Identifiers -/

def allocateProofId (n : Nat) (s : State α) : Nat × State α :=
  match s.pletMap n with
  | some id => (id, s)
  | none =>
    (s.pfIdCounter + 1, { s with
        pfIdCounter := s.pfIdCounter + 1
        pletMap := Function.update s.pletMap n (some (s.pfIdCounter + 1)) })

section

variable [DecidableEq α]

/-- The identifier, and whether it was allocated. -/
def allocateAssumeId (F : α) (s : State α) : (Nat × Bool) × State α :=
  match s.context.passumeMap F with
  | some id => ((id, false), s)
  | none =>
    ((s.pfIdCounter + 1, true), { s with
        pfIdCounter := s.pfIdCounter + 1
        context :=
          { s.context with
            passumeMap := Function.update s.context.passumeMap F (some (s.pfIdCounter + 1)) } })

def allocateAssumePushId (F : α) (s : State α) : Nat × State α :=
  match allocateAssumeId F s with
  | ((id, true), s) => (id, s)
  | ((_, false), s) => (s.pfIdCounter + 1, { s with pfIdCounter := s.pfIdCounter + 1 })

/-! ## Steps -/

def printPush (s : State α) (F : α) : State α :=
  (allocateAssumePushId F s).2.print (.assumePush (allocateAssumePushId F s).1 F)

def printStepPre (g : Dag α) (n : Nat) (s : State α) : State α :=
  match g.node n with
  | .scope args _ _ => args.foldl printPush s.push
  | _ => s

/-- The identifier of a child, an assertion failure if there is none. -/
def premise? (g : Dag α) (s : State α) (c : Nat) : Option (Nat × Fact α) :=
  match g.node c with
  | .assume F => (s.context.passumeMap F).map (·, .proves F)
  | n => (s.pletMap c).map (·, .proves n.result)

/-- The steps `step-pop`, one for every argument; the last argument is discharged first. -/
def printPops : List α → Nat × Fact α → State α → (Nat × Fact α) × State α
  | [], premise, s => (premise, s)
  | F :: args, premise, s =>
    printPops args (s.pfIdCounter + 1, .implies F premise.2)
      (State.print { s with pfIdCounter := s.pfIdCounter + 1 } (.stepPop (s.pfIdCounter + 1) premise))

def printStepPost (g : Dag α) (n : Nat) (s : State α) : Option (State α) :=
  match g.node n with
  | .assume _ => none
  | .scope args child result =>
    let (id, s) := allocateProofId n s
    (premise? g s child).map fun premise =>
      match args with
      | [] => State.pop { s with pletMap := Function.update s.pletMap n (some premise.1) }
      | _ =>
        let (premise, s) := printPops args.reverse premise s
        (s.print (.step id [premise] result)).pop
  | .step children result =>
    let (id, s) := allocateProofId n s
    (children.mapM (premise? g s)).map fun premises => s.print (.step id premises result)

/-! ## The traversal -/

/-- One round of the loop of `printProofInternal`; the top of the stack is the head of the
list. -/
def visitStep (g : Dag α) (addToCache : Bool) (cur : Nat) (visit : List Nat) (s : State α) :
    Option (List Nat × State α) :=
  if s.context.alreadyPrinted cur then some (visit, s)
  else
    match s.context.processingChildren cur with
    | none =>
      if (g.node cur).isAssume then some (visit, s)
      else
        some ((g.node cur).children.reverse ++ cur :: visit,
          (printStepPre g cur s).setProcessing cur true)
    | some true =>
      (printStepPost g cur (s.setProcessing cur false)).map fun s =>
        (visit, if addToCache then s.insertPrinted cur else s)
    | some false => some (visit, s)

def loop (g : Dag α) (addToCache : Bool) : Nat → List Nat → State α → Option (State α)
  | _, [], s => some s
  | 0, _ :: _, _ => none
  | fuel + 1, cur :: visit, s =>
    (visitStep g addToCache cur visit s).bind fun p => loop g addToCache fuel p.1 p.2

def printProofInternal (g : Dag α) (addToCache : Bool) (fuel : Nat) (n : Nat) (s : State α) :
    Option (State α) :=
  loop g addToCache fuel [n]
    { s with context := { s.context with processingChildren := fun _ => none } }

/-- The unique assertions, with the formulas that were printed. -/
def printAssertions : List α → List α → State α → List α × State α
  | [], processed, s => (processed, s)
  | F :: assertions, processed, s =>
    if F ∈ processed then printAssertions assertions processed s
    else
      printAssertions assertions (F :: processed)
        ((allocateAssumeId F s).2.print (.assume (allocateAssumeId F s).1.1 F))

/-- The definitions, as steps of the rule `refl`. -/
def printDefinitions (isEqual : α → Bool) : List α → List α → State α → State α
  | [], _, s => s
  | F :: definitions, processed, s =>
    if ¬isEqual F ∨ F ∈ processed then printDefinitions isEqual definitions processed s
    else
      printDefinitions isEqual definitions (F :: processed)
        ((allocateAssumeId F s).2.print (.step (allocateAssumeId F s).1.1 [] F))

/-- The proof below its outer `SCOPE` steps, of which the arguments are the definitions and the
assertions. -/
structure Proof (α : Type) where
  dag : Dag α
  isEqual : α → Bool
  definitions : List α
  assertions : List α
  body : Nat

def printPass (p : Proof α) (addToCache : Bool) (fuel : Nat) (s : State α) : Option (State α) :=
  let (processed, s) := printAssertions p.assertions [] s
  printProofInternal p.dag addToCache fuel p.body
    (printDefinitions p.isEqual p.definitions processed s)

def initial : State α where
  pfIdCounter := 0
  pletMap _ := none
  context := ⟨fun _ => none, fun _ => false, fun _ => none⟩
  saved := []
  out := []

def print (p : Proof α) (fuel : Nat) : Option (List (Command α)) := do
  let s ← printPass p false fuel initial
  let s ← printPass p true fuel { s with out := [] }
  some s.out

/-! ## Replaying the commands -/

/-- A scope: the assumption that opened it, and the names that are bound in it. -/
structure Scope (α : Type) where
  assumption : Option α
  names : List (Nat × Fact α)

def lookup (id : Nat) : List (Scope α) → Option (Fact α)
  | [] => none
  | sc :: scopes => (sc.names.lookup id).or (lookup id scopes)

/-- Binding a name in the innermost scope, an error if it is bound there. -/
def bind (id : Nat) (X : Fact α) : List (Scope α) → Option (List (Scope α))
  | [] => none
  | sc :: scopes =>
    if sc.names.any (·.1 == id) then none
    else some ({ sc with names := (id, X) :: sc.names } :: scopes)

def exec (scopes : List (Scope α)) : Command α → Option (List (Scope α))
  | .assume id F => bind id (.proves F) scopes
  | .assumePush id F => some (⟨some F, [(id, .proves F)]⟩ :: scopes)
  | .step id premises result =>
    if ∀ p ∈ premises, lookup p.1 scopes = some p.2 then bind id (.proves result) scopes else none
  | .stepPop id premise =>
    if lookup premise.1 scopes = some premise.2 then
      match scopes with
      | ⟨some F, _⟩ :: rest => bind id (.implies F premise.2) rest
      | _ => none
    else none

def replay (scopes : List (Scope α)) (commands : List (Command α)) : Option (List (Scope α)) :=
  commands.foldlM exec scopes

end

/-! ## Closed proofs -/

/-- Every assumption that the node depends on is one of `Γ`, or discharged by a `SCOPE`
step on the way to it. -/
inductive Closed (g : Dag α) : (α → Prop) → Nat → Prop
  | assume {Γ : α → Prop} {n : Nat} {F : α} (hn : g.node n = .assume F) (hF : Γ F) : Closed g Γ n
  | scope {Γ : α → Prop} {n c : Nat} {args : List α} {F : α} (hn : g.node n = .scope args c F)
      (hc : Closed g (fun G => Γ G ∨ G ∈ args) c) : Closed g Γ n
  | step {Γ : α → Prop} {n : Nat} {cs : List Nat} {F : α} (hn : g.node n = .step cs F)
      (hcs : ∀ c ∈ cs, Closed g Γ c) : Closed g Γ n

/-- The nodes of a proof. -/
inductive Reaches (g : Dag α) : Nat → Nat → Prop
  | refl (n : Nat) : Reaches g n n
  | child {n c m : Nat} : c ∈ (g.node n).children → Reaches g c m → Reaches g n m

namespace Proof

/-- The formulas that are printed as assumptions, or as steps for definitions. -/
def Assumed (p : Proof α) (F : α) : Prop :=
  F ∈ p.assertions ∨ F ∈ p.definitions ∧ p.isEqual F

def IsClosed (p : Proof α) : Prop := Closed p.dag p.Assumed p.body

/-- The steps that are printed name no step or assumption wrongly, and the last one proves the
result. -/
def WellScoped [DecidableEq α] (p : Proof α) : Prop :=
  ∃ fuel commands names, print p fuel = some commands ∧
    replay [⟨none, []⟩] commands = some [⟨none, names⟩] ∧
    ∃ id premises, commands.getLast? = some (.step id premises (p.dag.node p.body).result)

end Proof

end EthosCpc.Cvc5.EoPrinter
