import EthosCpc.Cvc5.DType
import Mathlib.Data.Set.Card

/-!
# The cardinality of datatypes in cvc5

`getCardinality` and `computeCardinality` of `expr/dtype.cpp` and
`expr/dtype_cons.cpp`, with the arithmetic of `util/cardinality.cpp`.  The type
that is asked for is passed on to the datatypes of its arguments, so that only
its own parameters are replaced.  The parameters of different datatypes are
different sorts, and a sort counts as infinite.
-/

namespace EthosCpc.Cvc5.Datatypes

/-- `Cardinality`: a finite one that can be represented, a larger finite one, or a Beth number. -/
inductive Cardinality
  | finite (n : Nat)
  | largeFinite
  | infinite (beth : Nat)

namespace Cardinality

def ofNat (n : Nat) : Cardinality := if n < 2 ^ 64 then finite n else largeFinite

def integers : Cardinality := infinite 0

/-- `operator+=`. -/
def add : Cardinality → Cardinality → Cardinality
  | finite n, finite m => ofNat (n + m)
  | finite _, largeFinite | largeFinite, finite _ | largeFinite, largeFinite => largeFinite
  | infinite k, infinite j => infinite (max k j)
  | infinite k, _ => infinite k
  | _, infinite k => infinite k

/-- `operator*=`. -/
def mul : Cardinality → Cardinality → Cardinality
  | finite n, finite m => ofNat (n * m)
  | finite _, largeFinite | largeFinite, finite _ | largeFinite, largeFinite => largeFinite
  | finite n, infinite k => if n = 0 then finite 0 else infinite k
  | infinite k, finite n => if n = 0 then finite 0 else infinite k
  | infinite k, infinite j => infinite (max k j)
  | infinite k, largeFinite | largeFinite, infinite k => infinite k

end Cardinality

/-- A loop that adds or multiplies what it gets for each element. -/
def accumulate {α : Type} (op : Cardinality → Cardinality → Cardinality)
    (f : α → Option Cardinality) : Cardinality → List α → Option Cardinality
  | c, [] => some c
  | c, a :: as => do accumulate op f (op c (← f a)) as

namespace Family

variable (F : Family) (cardinality : Nat → Cardinality)

def argumentCardinality (datatype : Nat → Option Cardinality) : Ty → Option Cardinality
  | .other k => some (cardinality k)
  | .param _ => some .integers
  | .data d _ => datatype d

/-- `DType::computeCardinality` of the datatype `d`, when the instance `args` of `d₀` is asked for. -/
def computeCardinality (d₀ : Nat) (args : List Ty) :
    Nat → List Nat → Nat → Option Cardinality
  | 0, _, _ => none
  | fuel + 1, processing, d =>
    if d ∈ processing then some .integers
    else do
      let dt ← F.datatypes[d]?
      accumulate .add (fun ctor => accumulate .mul (fun ty =>
          argumentCardinality cardinality (computeCardinality d₀ args fuel (d :: processing))
            (if d = d₀ then ty.substitute args else ty)) (.finite 1) ctor)
        (.finite 0) dt.constructors

end Family

/-! ## Values -/

/-- Values: those of types without datatypes, and applications of constructors. -/
inductive Value (V : Nat → Type)
  | other (k : Nat) (v : V k)
  | apply (t : Ty) (c : Nat) (args : List (Value V))

/-- The values of a type. -/
inductive HasType {V : Nat → Type} (F : Family) : Value V → Ty → Prop
  | other {k : Nat} {v : V k} : HasType F (.other k v) (.other k)
  | apply {d c : Nat} {args : List Ty} {dt : DType} {ctor : List Ty} {vs : List (Value V)}
      (hdt : F.datatypes[d]? = some dt) (hctor : dt.constructors[c]? = some ctor)
      (hlength : vs.length = ctor.length)
      (hvs : ∀ (i : Nat) (v : Value V) (ty : Ty), vs[i]? = some v → ctor[i]? = some ty →
        HasType F v (ty.substitute args)) : HasType F (.apply (.data d args) c vs) (.data d args)

def values (V : Nat → Type) (F : Family) (t : Ty) : Set (Value V) := {v | HasType F v t}

end EthosCpc.Cvc5.Datatypes
