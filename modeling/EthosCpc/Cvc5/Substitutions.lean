import Mathlib.Data.List.AList

/-!
# Substitution maps

The class `SubstitutionMap`: a context-dependent map from symbols to terms, and a
cache of the substitutions already performed, which does not depend on the context
and is cleared at the next call after a change of the map or a pop.  `apply` is an
iterative traversal that visits subterms and ranges of the map; with compression it
writes the results for the ranges back into the map while it runs.

The operator of a term with a parameterized kind is the first of its parts.
-/

namespace EthosCpc.Cvc5.Substitutions

inductive Leaf
  | sym (x : Nat)
  | bvar (v : Nat)
  | const (c : Nat)
deriving DecidableEq

inductive Kind
  | equal
  | and
  | boundVarList
  | closure (s : Nat)
  | other (s : Nat)
deriving DecidableEq

inductive Node
  | leaf (l : Leaf)
  | app (k : Kind) (parts : List Node)

namespace Node

mutual

def decEq : (a b : Node) → Decidable (a = b)
  | .leaf l, .leaf l' =>
    if h : l = l' then isTrue (h ▸ rfl) else isFalse fun heq => h (leaf.inj heq)
  | .app k cs, .app k' cs' =>
    if h : k = k' then
      match decEqList cs cs' with
      | isTrue hcs => isTrue (h ▸ hcs ▸ rfl)
      | isFalse hcs => isFalse fun heq => hcs (app.inj heq).2
    else isFalse fun heq => h (app.inj heq).1
  | .leaf _, .app _ _ | .app _ _, .leaf _ => isFalse (by simp)

def decEqList : (as bs : List Node) → Decidable (as = bs)
  | [], [] => isTrue rfl
  | [], _ :: _ | _ :: _, [] => isFalse (by simp)
  | a :: as, b :: bs =>
    match decEq a b with
    | isTrue h =>
      match decEqList as bs with
      | isTrue h' => isTrue (h ▸ h' ▸ rfl)
      | isFalse h' => isFalse fun heq => h' (List.cons.inj heq).2
    | isFalse h => isFalse fun heq => h (List.cons.inj heq).1

end

instance : DecidableEq Node := decEq

@[elab_as_elim, induction_eliminator]
lemma rec' {motive : Node → Prop} (leaf : ∀ l, motive (.leaf l))
    (app : ∀ k cs, (∀ c ∈ cs, motive c) → motive (.app k cs)) (n : Node) : motive n :=
  @Node.rec motive (fun cs => ∀ c ∈ cs, motive c) leaf app (by simp)
    (fun c cs hc hcs => by simpa using ⟨hc, hcs⟩) n

def sym (x : Nat) : Node := .leaf (.sym x)

end Node

abbrev NodeMap : Type := AList fun _ : Node => Node

/-- An element of the stack `toVisit`. -/
structure StackElement where
  node : Node
  childrenAdded : Bool

/-- The state of the loop of `internalSubstitute`; the back of the stack comes first. -/
structure State where
  toVisit : List StackElement
  cache : NodeMap
  substitutions : NodeMap
  tracker : Option (List Node)

def range? (substitutions : NodeMap) (n : Node) : Option Node :=
  match substitutions.lookup n with
  | some rhs => if rhs = n then none else some rhs
  | none => none

/-- `cache[current] = result` and the removal of the back of the stack. -/
def finish (s : State) (rest : List StackElement) (current result : Node) : State :=
  { s with
    toVisit := rest
    cache := s.cache.insert current result }

/-- The end of the visit of a node whose parts have been visited. -/
def processed (compress : Bool) (s : State) (rest : List StackElement) (current result : Node) :
    State :=
  if result = current then finish s rest current result
  else
    match s.cache.lookup result with
    | some r => finish s rest current r
    | none =>
      match range? s.substitutions result with
      | none => finish s rest current result
      | some rhs =>
        match s.cache.lookup rhs with
        | none => { s with toVisit := ⟨rhs, false⟩ :: s.toVisit }
        | some r =>
          { toVisit := rest
            cache := (s.cache.insert result r).insert current r
            substitutions := if compress then s.substitutions.insert result r else s.substitutions
            tracker := s.tracker.map fun ns => ns.insert result }

/-- The parts that are not in the cache yet, last part first, go on top of the stack. -/
def pushParts (cache : NodeMap) (parts : List Node) (stack : List StackElement) :
    List StackElement :=
  ((parts.filter fun c => (cache.lookup c).isNone).map fun c => ⟨c, false⟩).reverse ++ stack

/-- One iteration of the loop; the assertion that all parts are in the cache may fail. -/
def step (compress : Bool) (s : State) : Option State :=
  match s.toVisit with
  | [] => none
  | head :: rest =>
    let current := head.node
    if (s.cache.lookup current).isSome then some { s with toVisit := rest }
    else
      match range? s.substitutions current with
      | some rhs =>
        match s.cache.lookup rhs with
        | none => some { s with toVisit := ⟨rhs, false⟩ :: s.toVisit }
        | some r =>
          some
            { toVisit := rest
              cache := s.cache.insert current r
              substitutions :=
                if s.tracker = none ∧ compress = true then s.substitutions.insert current r
                else s.substitutions
              tracker := s.tracker.map fun ns => ns.insert current }
      | none =>
        match current with
        | .leaf l => some (finish s rest (.leaf l) (.leaf l))
        | .app k parts =>
          if head.childrenAdded then
            (parts.mapM s.cache.lookup).map fun results =>
              processed compress s rest (.app k parts) (.app k results)
          else if parts = [] then some (finish s rest (.app k parts) (.app k parts))
          else
            some { s with
              toVisit := pushParts s.cache parts (⟨.app k parts, true⟩ :: rest) }

/-- The loop, until the stack is empty; `none` also when the fuel runs out. -/
def loop (compress : Bool) : Nat → State → Option State
  | 0, s => if s.toVisit.isEmpty then some s else none
  | fuel + 1, s => if s.toVisit.isEmpty then some s else (step compress s).bind (loop compress fuel)

/-- The map; `saved` holds its contents at the pushes that have not been popped. -/
structure SubstitutionMap where
  substitutions : NodeMap
  saved : List NodeMap
  cache : NodeMap
  cacheInvalidated : Bool
  compress : Bool

namespace SubstitutionMap

def empty (compress : Bool) : SubstitutionMap where
  substitutions := ∅
  saved := []
  cache := ∅
  cacheInvalidated := false
  compress := compress

def push (m : SubstitutionMap) : SubstitutionMap :=
  { m with saved := m.substitutions :: m.saved }

/-- The context restores the map and notifies the cache invalidator. -/
def pop (m : SubstitutionMap) : Option SubstitutionMap :=
  match m.saved with
  | [] => none
  | substitutions :: saved =>
    some { m with
      substitutions := substitutions
      saved := saved
      cacheInvalidated := true }

def addSubstitution (m : SubstitutionMap) (x t : Node) : Option SubstitutionMap :=
  if (m.substitutions.lookup x = none ∨ m.compress = false) ∧ x ≠ t then
    some { m with
      substitutions := m.substitutions.insert x t
      cacheInvalidated := true }
  else none

/-- The loop of `addSubstitutions` over the entries of the other map. -/
def addEntries (substitutions : NodeMap) : List (Node × Node) → Option NodeMap
  | [] => some substitutions
  | (x, t) :: entries =>
    if substitutions.lookup x = none then addEntries (substitutions.insert x t) entries else none

def addSubstitutions (m : SubstitutionMap) (entries : List (Node × Node)) :
    Option SubstitutionMap :=
  (addEntries m.substitutions entries).map fun substitutions =>
    { m with
      substitutions := substitutions
      cacheInvalidated := true }

def eraseSubstitution (m : SubstitutionMap) (x : Node) : Option SubstitutionMap :=
  if m.compress = false ∧ (m.substitutions.lookup x).isSome then
    some { m with
      substitutions := m.substitutions.insert x x
      cacheInvalidated := true }
  else none

/-- `internalSubstitute`, from the cache it is given. -/
def internalSubstitute (fuel : Nat) (compress : Bool) (substitutions cache : NodeMap) (t : Node)
    (tracker : Option (List Node)) : Option (Node × State) :=
  if substitutions.entries.isEmpty then some (t, ⟨[], cache, substitutions, tracker⟩)
  else do
    let s ← loop compress fuel ⟨[⟨t, false⟩], cache, substitutions, tracker⟩
    let result ← s.cache.lookup t
    some (result, s)

/-- `apply` without a rewriter and without a traversal callback. -/
def apply (fuel : Nat) (m : SubstitutionMap) (t : Node) (tracker : Option (List Node)) :
    Option (Node × Option (List Node) × SubstitutionMap) :=
  let cache := if m.cacheInvalidated then ∅ else m.cache
  (internalSubstitute fuel m.compress m.substitutions cache t tracker).map fun (result, s) =>
    (result, s.tracker,
      { m with
        substitutions := s.substitutions
        cache := s.cache
        cacheInvalidated := false })

def toFormula (m : SubstitutionMap) : Node :=
  match m.substitutions.entries.map fun sub => Node.app .equal [sub.1, sub.2] with
  | [] => .leaf (.const 0)
  | [conj] => conj
  | conj => .app .and conj

end SubstitutionMap

end EthosCpc.Cvc5.Substitutions
