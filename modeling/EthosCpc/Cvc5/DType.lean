import EthosCpc.Library.CutSearch

/-!
# Well-foundedness and ground terms of datatypes in cvc5

`isWellFounded` and `mkGroundTerm` of `expr/dtype.cpp` and `expr/dtype_cons.cpp`,
for families of datatypes without codatatypes.  The search of the former runs
through the datatypes, that of the latter through their instances; either one
cuts off at what is in progress.  A type that is no datatype contains none, and a
ground term of it is not looked into.
-/

namespace EthosCpc.Cvc5.Datatypes

open Library

/-- Types: one without datatypes, a parameter, and an instance of a datatype. -/
inductive Ty
  | other (k : Nat)
  | param (i : Nat)
  | data (d : Nat) (args : List Ty)

namespace Ty

mutual

def decEq : (a b : Ty) → Decidable (a = b)
  | .other k, .other k' =>
    if h : k = k' then isTrue (h ▸ rfl) else isFalse fun heq => h (other.inj heq)
  | .param i, .param i' =>
    if h : i = i' then isTrue (h ▸ rfl) else isFalse fun heq => h (param.inj heq)
  | .data d as, .data d' as' =>
    if h : d = d' then
      match decEqList as as' with
      | isTrue has => isTrue (h ▸ has ▸ rfl)
      | isFalse has => isFalse fun heq => has (data.inj heq).2
    else isFalse fun heq => h (data.inj heq).1
  | .other _, .param _ | .other _, .data _ _ | .param _, .other _ | .param _, .data _ _
  | .data _ _, .other _ | .data _ _, .param _ => isFalse (by simp)

def decEqList : (as bs : List Ty) → Decidable (as = bs)
  | [], [] => isTrue rfl
  | [], _ :: _ | _ :: _, [] => isFalse (by simp)
  | a :: as, b :: bs =>
    match decEq a b with
    | isTrue h =>
      match decEqList as bs with
      | isTrue h' => isTrue (h ▸ h' ▸ rfl)
      | isFalse h' => isFalse fun heq => h' (List.cons.inj heq).2
    | isFalse h => isFalse fun heq => h (List.cons.inj heq).1

end

instance : DecidableEq Ty := decEq

@[elab_as_elim, induction_eliminator]
lemma ind {motive : Ty → Prop} (other : ∀ k, motive (.other k)) (param : ∀ i, motive (.param i))
    (data : ∀ d args, (∀ ty ∈ args, motive ty) → motive (.data d args)) (ty : Ty) : motive ty :=
  Ty.rec (motive_1 := motive) (motive_2 := fun args => ∀ ty ∈ args, motive ty) other param data
    (fun _ h => absurd h List.not_mem_nil)
    (fun _ _ h hs _ hmem => (List.mem_cons.1 hmem).elim (fun heq => heq ▸ h) (hs _)) ty

mutual

/-- `substitute`, of all parameters at once. -/
def substitute (inst : List Ty) : Ty → Ty
  | .other k => .other k
  | .param i => inst.getD i (.param i)
  | .data d args => .data d (substituteAll inst args)

def substituteAll (inst : List Ty) : List Ty → List Ty
  | [] => []
  | ty :: tys => substitute inst ty :: substituteAll inst tys

end

mutual

/-- The datatypes among the component types. -/
def components : Ty → List Nat
  | .other _ | .param _ => []
  | .data d args => d :: componentsAll args

def componentsAll : List Ty → List Nat
  | [] => []
  | ty :: tys => components ty ++ componentsAll tys

end

end Ty

/-- `DType`: the number of parameters, and the argument types of each constructor. -/
structure DType where
  numParams : Nat
  constructors : List (List Ty)

mutual

/-- The datatypes exist and have all their arguments, and there are `n` parameters. -/
def Ty.Ok (datatypes : List DType) (n : Nat) : Ty → Prop
  | .other _ => True
  | .param i => i < n
  | .data d args =>
    (∃ dt, datatypes[d]? = some dt ∧ args.length = dt.numParams) ∧ Ty.OkAll datatypes n args

def Ty.OkAll (datatypes : List DType) (n : Nat) : List Ty → Prop
  | [] => True
  | ty :: tys => Ty.Ok datatypes n ty ∧ Ty.OkAll datatypes n tys

end

/-- Mutually recursive datatypes that have been resolved.  A declaration without constructors is
rejected. -/
structure Family where
  datatypes : List DType
  nonempty : ∀ dt ∈ datatypes, dt.constructors ≠ []
  ok : ∀ dt ∈ datatypes, ∀ ctor ∈ dt.constructors, ∀ ty ∈ ctor, ty.Ok datatypes dt.numParams

/-! ## Terms -/

/-- A ground term or value of a type without datatypes, and the application of a constructor. -/
inductive Term
  | other (ty : Ty) (isValue : Bool)
  | apply (ty : Ty) (c : Nat) (args : List Term)

def Term.type : Term → Ty
  | .other ty _ => ty
  | .apply ty _ _ => ty

mutual

def getSubtermWithType (t : Ty) (isTop : Bool) : Term → Option Term
  | .other ty isValue => if !isTop ∧ ty = t then some (.other ty isValue) else none
  | .apply ty c args =>
    if !isTop ∧ ty = t then some (.apply ty c args) else getSubtermOfAny t args

/-- The loop over the children. -/
def getSubtermOfAny (t : Ty) : List Term → Option Term
  | [] => none
  | e :: es =>
    match getSubtermWithType t false e with
    | some se => some se
    | none => getSubtermOfAny t es

end

namespace Family

variable (F : Family)

/-! ## Well-foundedness -/

/-- The loops over constructors, arguments and component types of `computeWellFounded`. -/
def components (d : Nat) : List (Unit × List (Unit ⊕ Nat)) :=
  match F.datatypes[d]? with
  | some dt => dt.constructors.map fun ctor => ((), (Ty.componentsAll ctor).map .inr)
  | none => []

/-- `DType::computeWellFounded`, with a bound on the depth. -/
def computeWellFounded (fuel : Nat) (processing : List Nat) (d : Nat) : Option Bool :=
  (CutSearch.search F.components (fun _ _ _ => ()) fuel processing d).map Option.isSome

/-- `isWellFounded` returns `r`. -/
def IsWellFounded (d : Nat) (r : Bool) : Prop := ∃ fuel, F.computeWellFounded fuel [] d = some r

/-! ## Ground terms -/

/-- The caches `d_groundTerm` and `d_groundValue` of a datatype. -/
abbrev Caches := Bool → Nat → Ty → Option Term

/-- What is needed for an argument: a term that is in the cache `gt` or of another type, or else a
ground term of an instance. -/
def argument (gt : Ty → Option Term) (isValue : Bool) : Ty → Term ⊕ Ty
  | .data d args =>
    match gt (.data d args) with
    | some arg => .inl arg
    | none => .inr (.data d args)
  | ty => .inl (.other ty isValue)

/-- The constructors in the order in which `computeGroundTerm` tries them: those without arguments
first. -/
def constructorOrder (dt : DType) : List (List Ty × Nat) :=
  dt.constructors.zipIdx.filter (fun ctor => ctor.1.isEmpty) ++
    dt.constructors.zipIdx.filter (fun ctor => !ctor.1.isEmpty)

/-- The loops over constructors and arguments of `computeGroundTerm`. -/
def arguments (σ : Caches) (isValue : Bool) : Ty → List (Nat × List (Term ⊕ Ty))
  | .data d args =>
    match F.datatypes[d]? with
    | some dt => (constructorOrder dt).map fun ctor =>
      (ctor.2, ctor.1.map fun ty => argument (σ isValue d) isValue (ty.substitute args))
    | none => []
  | _ => []

/-- The application of a constructor, or a proper subterm of the same type. -/
def mkApply (t : Ty) (c : Nat) (args : List Term) : Term :=
  (getSubtermWithType t true (.apply t c args)).getD (.apply t c args)

/-- `DType::computeGroundTerm`, with a bound on the depth. -/
def computeGroundTerm (σ : Caches) (isValue : Bool) (fuel : Nat) (processing : List Ty) (t : Ty) :
    Option (Option Term) :=
  CutSearch.search (F.arguments σ isValue) mkApply fuel processing t

/-- `mkGroundTermInternal`, for the instance `args` of the datatype `d`. -/
def mkGroundTermInternal (fuel : Nat) (isValue : Bool) (d : Nat) (args : List Ty) (σ : Caches) :
    Option (Option Term × Caches) :=
  match σ isValue d (.data d args) with
  | some e => some (some e, σ)
  | none => do
      match ← F.computeGroundTerm σ isValue fuel [] (.data d args) with
      | some e => pure (some e, fun v d' t =>
        if v = isValue ∧ d' = d ∧ t = .data d args then some e else σ v d' t)
      | none => pure (none, σ)

/-- The caches after some calls of `mkGroundTerm` and `mkGroundValue`. -/
inductive Reachable : Caches → Prop
  | init : Reachable fun _ _ _ => none
  | call {σ σ' : Caches} {fuel d : Nat} {isValue : Bool} {args : List Ty} {r : Option Term}
      (h : Reachable σ) (hargs : (Ty.data d args).Ok F.datatypes 0)
      (hcall : F.mkGroundTermInternal fuel isValue d args σ = some (r, σ')) : Reachable σ'

end Family

/-! ## Values -/

/-- The finite terms over constructors. -/
inductive Typed (F : Family) : Term → Ty → Prop
  | other {k : Nat} {isValue : Bool} : Typed F (.other (.other k) isValue) (.other k)
  | apply {d c : Nat} {args : List Ty} {dt : DType} {ctor : List Ty} {es : List Term}
      (hdt : F.datatypes[d]? = some dt) (hctor : dt.constructors[c]? = some ctor)
      (hlength : es.length = ctor.length)
      (hes : ∀ (i : Nat) (e : Term) (ty : Ty), es[i]? = some e → ctor[i]? = some ty →
        Typed F e (ty.substitute args)) : Typed F (.apply (.data d args) c es) (.data d args)

end EthosCpc.Cvc5.Datatypes
