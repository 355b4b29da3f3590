import EthosCpc.Eunoia.Builtins

/-!
# Arithmetic of literals

The part of `Literal::evaluate` that computes with Booleans, numbers and
bit-vectors.  An operator first asks that all its arguments are literals of
one kind, and is stuck on anything else.

Bit-vectors are `BitVector` objects whose size is an `uint32_t`.  All
operators but concatenation keep that size or take it from a number that
`eo::to_bin` has checked.  `BitVector::concat` adds two sizes in `uint32_t`
and reduces the value to the size it gets.
-/

namespace EthosCpc

open Option (some.inj)

/-! ## Kinds of literals -/

def isBool : Term → Bool
  | .bool _ => true
  | _ => false

def isZ : Term → Bool
  | .num _ => true
  | _ => false

def isQ : Term → Bool
  | .rat _ => true
  | _ => false

def isBin : Term → Bool
  | .bin _ _ => true
  | _ => false

def isStr : Term → Bool
  | .str _ => true
  | _ => false

/-! ## Operators -/

/-- An operator on two Booleans, or on two binaries of one width. -/
def logicOp (f : Bool → Bool → Bool) (g : ∀ w, BitVec w → BitVec w → BitVec w) :
    Term → Term → Option Term
  | .bool a, .bool b => some (.bool (f a b))
  | .bin w a, .bin w' b => if h : w' = w then some (.bin w (g w a (b.cast h))) else none
  | _, _ => none

def eoAnd : Term → Term → Option Term := logicOp (· && ·) fun _ a b => a &&& b

def eoOr : Term → Term → Option Term := logicOp (· || ·) fun _ a b => a ||| b

def eoXor : Term → Term → Option Term := logicOp (· != ·) fun _ a b => a ^^^ b

/-- An operator on two numbers of one kind, or on two binaries of one width. -/
def numOp (f : Int → Int → Int) (g : Rat → Rat → Rat)
    (k : ∀ w, BitVec w → BitVec w → BitVec w) : Term → Term → Option Term
  | .num a, .num b => some (.num (f a b))
  | .rat a, .rat b => some (.rat (g a b))
  | .bin w a, .bin w' b => if h : w' = w then some (.bin w (k w a (b.cast h))) else none
  | _, _ => none

def eoAdd : Term → Term → Option Term := numOp (· + ·) (· + ·) fun _ a b => a + b

def eoMul : Term → Term → Option Term := numOp (· * ·) (· * ·) fun _ a b => a * b

def eoNeg : Term → Option Term
  | .num a => some (.num (-a))
  | .rat a => some (.rat (-a))
  | .bin w a => some (.bin w (-a))
  | _ => none

/-- Division or remainder: Euclidean for numerals, stuck at zero, and total for
binaries. -/
def intDivOp (f : Int → Int → Int) (k : ∀ w, BitVec w → BitVec w → BitVec w) :
    Term → Term → Option Term
  | .num a, .num b => if b ≠ 0 then some (.num (f a b)) else none
  | .bin w a, .bin w' b => if h : w' = w then some (.bin w (k w a (b.cast h))) else none
  | _, _ => none

def eoZdiv : Term → Term → Option Term := intDivOp (· / ·) fun _ a b => a.smtUDiv b

def eoZmod : Term → Term → Option Term := intDivOp (· % ·) fun _ a b => a.umod b

def eoQdiv : Term → Term → Option Term
  | .num a, .num b => if b ≠ 0 then some (.rat (a / b)) else none
  | .rat a, .rat b => if b ≠ 0 then some (.rat (a / b)) else none
  | _, _ => none

def eoIsNeg : Term → Option Bool
  | .num a => some (decide (a < 0))
  | .rat a => some (decide (a < 0))
  | _ => none

def eoGt : Term → Term → Option Bool
  | .num a, .num b => some (decide (a > b))
  | .rat a, .rat b => some (decide (a > b))
  | .bin _ a, .bin _ b => some (decide (a.toNat > b.toNat))
  | _, _ => none

/-- `eo::extract` of the bits `i1` to `i2` of a binary, empty where the bounds
are out of range. -/
def eoExtract : Term → Int → Int → Option Term
  | .bin w x, i1, i2 =>
    if i1 < 0 ∨ i2 < 0 ∨ i1 > w ∨ w = 0 then some (.bin 0 0#0)
    else
      let v2 := if i2 > w then w - 1 else i2.toNat
      if i1.toNat > v2 then some (.bin 0 0#0)
      else some (.bin (v2 - i1.toNat + 1) (x.extractLsb' i1.toNat (v2 - i1.toNat + 1)))
  | _, _, _ => none

def eoConcat : Term → Term → Option Term
  | .bin w a, .bin w' b =>
    some (.bin ((w + w') % maxWidth) (BitVec.ofNat _ (a.toNat * 2 ^ w' + b.toNat)))
  | .str a, .str b => some (.str (a ++ b))
  | _, _ => none

/-! ## Inversion -/

variable {r x y : Term} {f : Int → Int → Int} {k : ∀ w, BitVec w → BitVec w → BitVec w}

lemma logicOp_inv {f : Bool → Bool → Bool} {g : ∀ w, BitVec w → BitVec w → BitVec w}
    (h : logicOp f g x y = some r) :
    (∃ a b, x = .bool a ∧ y = .bool b ∧ r = .bool (f a b)) ∨
    (∃ w a b, x = .bin w a ∧ y = .bin w b ∧ r = .bin w (g w a b)) := by
  unfold logicOp at h
  split at h
  · rename_i a b
    exact .inl ⟨a, b, rfl, rfl, (some.inj h).symm⟩
  · rename_i w a w' b
    split at h
    · rename_i hw
      subst hw
      exact .inr ⟨_, a, b, rfl, rfl, (some.inj h).symm⟩
    · cases h
  · cases h

lemma numOp_inv {g : Rat → Rat → Rat}
     (h : numOp f g k x y = some r) :
    (∃ a b, x = .num a ∧ y = .num b ∧ r = .num (f a b)) ∨
    (∃ a b, x = .rat a ∧ y = .rat b ∧ r = .rat (g a b)) ∨
    (∃ w a b, x = .bin w a ∧ y = .bin w b ∧ r = .bin w (k w a b)) := by
  unfold numOp at h
  split at h
  · rename_i a b
    exact .inl ⟨a, b, rfl, rfl, (some.inj h).symm⟩
  · rename_i a b
    exact .inr (.inl ⟨a, b, rfl, rfl, (some.inj h).symm⟩)
  · rename_i w a w' b
    split at h
    · rename_i hw
      subst hw
      exact .inr (.inr ⟨_, a, b, rfl, rfl, (some.inj h).symm⟩)
    · cases h
  · cases h

lemma eoNeg_inv (h : eoNeg x = some r) :
    (∃ a, x = .num a ∧ r = .num (-a)) ∨ (∃ a, x = .rat a ∧ r = .rat (-a)) ∨
    (∃ w a, x = .bin w a ∧ r = .bin w (-a)) := by
  unfold eoNeg at h
  split at h
  · exact .inl ⟨_, rfl, (some.inj h).symm⟩
  · exact .inr (.inl ⟨_, rfl, (some.inj h).symm⟩)
  · exact .inr (.inr ⟨_, _, rfl, (some.inj h).symm⟩)
  · cases h

lemma eoNot_inv (h : eoNot x = some r) :
    (∃ a, x = .bool a ∧ r = .bool (!a)) ∨ (∃ w a, x = .bin w a ∧ r = .bin w (~~~ a)) := by
  unfold eoNot at h
  split at h
  · exact .inl ⟨_, rfl, (some.inj h).symm⟩
  · exact .inr ⟨_, _, rfl, (some.inj h).symm⟩
  · cases h

lemma intDivOp_inv (h : intDivOp f k x y = some r) :
    (∃ a b, x = .num a ∧ y = .num b ∧ b ≠ 0 ∧ r = .num (f a b)) ∨
    (∃ w a b, x = .bin w a ∧ y = .bin w b ∧ r = .bin w (k w a b)) := by
  unfold intDivOp at h
  split at h
  · rename_i a b
    split at h
    · rename_i hb
      exact .inl ⟨a, b, rfl, rfl, hb, (some.inj h).symm⟩
    · cases h
  · rename_i w a w' b
    split at h
    · rename_i hw
      subst hw
      exact .inr ⟨_, a, b, rfl, rfl, (some.inj h).symm⟩
    · cases h
  · cases h

lemma eoIsNeg_inv {b : Bool} (h : eoIsNeg x = some b) :
    (∃ a, x = .num a ∧ b = decide (a < 0)) ∨ (∃ a, x = .rat a ∧ b = decide (a < 0)) := by
  unfold eoIsNeg at h
  split at h
  · exact .inl ⟨_, rfl, (some.inj h).symm⟩
  · exact .inr ⟨_, rfl, (some.inj h).symm⟩
  · cases h

lemma eoToQ_inv {q : Rat} (h : eoToQ x = some q) :
    (∃ a : Int, x = .num a ∧ q = a) ∨ x = .rat q := by
  unfold eoToQ at h
  split at h
  · exact .inl ⟨_, rfl, (some.inj h).symm⟩
  · exact .inr (by rw [some.inj h])
  · cases h

end EthosCpc
