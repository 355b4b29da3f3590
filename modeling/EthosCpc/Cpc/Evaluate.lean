import EthosCpc.Eunoia.Literal

/-!
# The evaluator

The program `$run_evaluate` of `Cpc.eo` on the Boolean, arithmetic and
bit-vector operators, with the programs of `programs/Arith.eo` and
`programs/BitVectors.eo` it calls, and the rule `evaluate`.

A stuck evaluation is `none`, and so is a term that keeps a stuck argument.
The cases are grouped by the number of arguments.  Each takes the terms
themselves, because some cases ask for the type of an argument before
evaluation, and the results of evaluating them.
-/

namespace EthosCpc

open Term (bop uop)

/-! ## Powers of two -/

/-- `$arith_eval_int_log_2_rec`, which is only called for positive numbers. -/
def arithEvalIntLog2Rec (x : Nat) : Int :=
  if x ≤ 1 then 0 else 1 + arithEvalIntLog2Rec (x / 2)
termination_by x

def arithEvalIntLog2 (x : Term) : Option Term :=
  ((eoNeg x).bind eoIsNeg).bind fun pos =>
    if pos then
      match x with
      | .num a => some (.num (arithEvalIntLog2Rec a.toNat))
      | _ => none
    else some (.num 0)

/-- `$arith_eval_int_pow_2_rec`, which is only called for numbers that are not
negative. -/
def arithEvalIntPow2Rec : Nat → Int
  | 0 => 1
  | x + 1 => 2 * arithEvalIntPow2Rec x

/-- `$arith_eval_int_pow_2` of a numeral. -/
def arithEvalIntPow2Num (x : Int) : Int :=
  if x < 0 then 0 else arithEvalIntPow2Rec x.toNat

def arithEvalIntPow2 : Term → Term
  | .num x => .num (arithEvalIntPow2Num x)
  | x => uop .intPow2 x

def arithEvalIntIsPow2 : Term → Option Term
  | .num x =>
    if x < 0 then some (.bool false)
    else (arithEvalIntLog2 (.num x)).map fun l => .bool (decide (.num x = arithEvalIntPow2 l))
  | x => some (uop .intIspow2 x)

/-! ## Bit-vectors -/

section BitVectors

variable (Γ : Nat → Ty)

/-- `($bv_bitwidth (eo::typeof b))`. -/
def bvBitwidth (b : Term) : Option Nat := (typeof Γ b).bind Ty.width

def bvSignBit (b : Term) : Option Term :=
  (bvBitwidth Γ b).bind fun w => eoExtract b ((w : Int) - 1) ((w : Int) - 1)

def bvOnes (m : Int) : Option Term := eoToBin m (arithEvalIntPow2Num m - 1)

def bvToSignedInt (b : Term) : Option Int :=
  (bvBitwidth Γ b).bind fun w =>
  ((eoExtract b 0 ((w : Int) - 2)).bind eoToZ).bind fun z =>
  (bvSignBit Γ b).map fun s =>
    if s = .bin 1 1#1 then -arithEvalIntPow2Num ((w : Int) - 1) + z else z

def bvRepeatEvalRec : Nat → Term → Option Term
  | 0, _ => eoToBin 0 0
  | n + 1, b => (bvRepeatEvalRec n b).bind (eoConcat b)

/-- `eo::to_bin` with a numeral as width and a numeral or binary as value. -/
def eoToBinLit : Term → Term → Option Term
  | .num w, .num n => eoToBin w n
  | .num w, .bin _ v => eoToBin w v.toNat
  | _, _ => none

/-! ## Evaluation -/

/-- The case `(= x y)`: literals of one kind are compared. -/
def evalEq (ex ey : Term) : Term :=
  if isQ ex && isQ ey then .bool (decide (ex = ey))
  else if isZ ex && isZ ey then .bool (decide (ex = ey))
  else if isBin ex && isBin ey then .bool (decide (ex = ey))
  else if isStr ex && isStr ey then .bool (decide (ex = ey))
  else if isBool ex && isBool ey then .bool (decide (ex = ey))
  else bop .eq ex ey

/-- The sign test of the comparisons `<` and `>`: is `a` less than `b`? -/
def evalLt (a b : Term) : Option Term :=
  (eoNeg b).bind fun nb => (eoAdd a nb).bind fun d => (eoIsNeg d).map .bool

/-- The test of the comparisons `<=` and `>=`: is `a` at most `b`? -/
def evalLeq (a b : Term) : Option Term :=
  (eoNeg b).bind fun nb => (eoAdd a nb).bind fun d =>
  (eoIsNeg d).bind fun n => (eoToQ d).map fun q => .bool (n || decide (q = 0))

/-- The shared shape of `bvshl` and `bvlshr`: shifts beyond the width give zero. -/
def evalShift (f : Int → Int → Option Term) (x : Term) (ex ey : Option Term) : Option Term :=
  ey.bind fun y => (eoToZ y).bind fun n => (bvBitwidth Γ x).bind fun w =>
    if n > w then eoToBin w 0
    else ex.bind fun x => (eoToZ x).bind fun z =>
      (f z (arithEvalIntPow2Num n)).bind (eoToBinLit (.num w))

/-- The case `(repeat n b)`: a numeral that is not negative is unfolded. -/
def evalRepeat : Term → Term → Option Term
  | .num i, b => if i < 0 then some (bop .bvrepeat (.num i) b) else bvRepeatEvalRec i.toNat b
  | n, b => (eoIsNeg n).map fun _ => bop .bvrepeat n b

/-- The cases of `$run_evaluate` for one argument. -/
def evalUop (s : Sym) (x : Term) (ex : Option Term) : Option Term :=
  match s with
  | .not => ex.bind eoNot
  | .uminus => ex.bind eoNeg
  | .toReal => (ex.bind eoToQ).map .rat
  | .toInt => (ex.bind eoToZ).map .num
  | .isInt => ex.bind fun v => (eoToZ v).bind fun z => (eoToQ v).map fun q =>
    .bool (decide ((z : Rat) = q))
  | .abs => ex.bind fun v => (eoIsNeg v).bind fun n => if n then eoNeg v else some v
  | .intLog2 => ex.bind arithEvalIntLog2
  | .intPow2 => ex.map arithEvalIntPow2
  | .intIspow2 => ex.bind arithEvalIntIsPow2
  | .bvnot => ex.bind eoNot
  | .bvneg => ex.bind eoNeg
  | .bvsize => (bvBitwidth Γ x).map fun w : Nat => .num w
  | .ubvToInt => (ex.bind eoToZ).map .num
  | .sbvToInt => ex.bind fun v => (bvBitwidth Γ v).bind fun w =>
    if w = 0 then some (.num 0)
    else
      -- the sign bit is taken from the argument before evaluation
      (bvSignBit Γ x).bind fun b => (eoToZ v).map fun z =>
        if b = .bin 1 0#1 then .num z else .num (z + -arithEvalIntPow2Num w)
  | s => some (uop s x)

/-- The cases of `$run_evaluate` for two arguments. -/
def evalBop (s : Sym) (x y : Term) (ex ey : Option Term) : Option Term :=
  match s with
  | .eq => ex.bind fun a => ey.map fun b => evalEq a b
  | .or => ex.bind fun a => ey.bind fun b => eoOr a b
  | .imp => (ex.bind eoNot).bind fun a => ey.bind fun b => eoOr a b
  | .and => ex.bind fun a => ey.bind fun b => eoAnd a b
  | .xor => ex.bind fun a => ey.bind fun b => eoXor a b
  | .lt => ex.bind fun a => ey.bind fun b => evalLt a b
  | .leq => ex.bind fun a => ey.bind fun b => evalLeq a b
  | .gt => ex.bind fun a => ey.bind fun b => evalLt b a
  | .geq => ex.bind fun a => ey.bind fun b => evalLeq b a
  | .plus => ex.bind fun a => ey.bind fun b => eoAdd a b
  | .minus => ex.bind fun a => (ey.bind eoNeg).bind fun b => eoAdd a b
  | .times => ex.bind fun a => ey.bind fun b => eoMul a b
  | .qdiv => (ex.bind eoToQ).bind fun a => (ey.bind eoToQ).bind fun b => eoQdiv (.rat a) (.rat b)
  | .qdivTotal => (ey.bind eoToQ).bind fun d =>
    if d = 0 then some (.rat 0) else (ex.bind eoToQ).bind fun a => eoQdiv (.rat a) (.rat d)
  | .div => ex.bind fun a => ey.bind fun b => eoZdiv a b
  | .divTotal => ey.bind fun d =>
    if d = .num 0 then some (.num 0) else ex.bind fun a => eoZdiv a d
  | .mod => ex.bind fun a => ey.bind fun b => eoZmod a b
  | .modTotal => ey.bind fun d => if d = .num 0 then ex else ex.bind fun a => eoZmod a d
  | .bvadd => ex.bind fun a => ey.bind fun b => eoAdd a b
  | .bvmul => ex.bind fun a => ey.bind fun b => eoMul a b
  | .bvudiv => ey.bind fun d => (eoToZ d).bind fun z =>
    if z = 0 then (bvBitwidth Γ x).bind fun w => bvOnes w else ex.bind fun a => eoZdiv a d
  | .bvurem => ey.bind fun d => (eoToZ d).bind fun z =>
    if z = 0 then ex else ex.bind fun a => eoZmod a d
  | .bvand => ex.bind fun a => ey.bind fun b => eoAnd a b
  | .bvor => ex.bind fun a => ey.bind fun b => eoOr a b
  | .bvxor => ex.bind fun a => ey.bind fun b => eoXor a b
  | .concat => ex.bind fun a => ey.bind fun b => eoConcat a b
  | .bvsub => ex.bind fun a => (ey.bind eoNeg).bind fun b => eoAdd a b
  | .bvult => (ex.bind eoToZ).bind fun a => (ey.bind eoToZ).map fun b => .bool (decide (b > a))
  | .bvule => ex.bind fun a => ey.bind fun b => (eoGt b a).map fun g => .bool (g || decide (a = b))
  | .bvugt => (ex.bind eoToZ).bind fun a => (ey.bind eoToZ).map fun b => .bool (decide (a > b))
  | .bvuge => ex.bind fun a => ey.bind fun b => (eoGt a b).map fun g => .bool (g || decide (a = b))
  | .bvslt => (ex.bind (bvToSignedInt Γ)).bind fun a => (ey.bind (bvToSignedInt Γ)).map fun b =>
    .bool (decide (b > a))
  | .bvsle => (ex.bind (bvToSignedInt Γ)).bind fun a => (ey.bind (bvToSignedInt Γ)).map fun b =>
    .bool (decide (b > a) || decide (a = b))
  | .bvsgt => (ex.bind (bvToSignedInt Γ)).bind fun a => (ey.bind (bvToSignedInt Γ)).map fun b =>
    .bool (decide (a > b))
  | .bvsge => (ex.bind (bvToSignedInt Γ)).bind fun a => (ey.bind (bvToSignedInt Γ)).map fun b =>
    .bool (decide (a > b) || decide (a = b))
  | .bvshl => evalShift Γ (fun z p => some (.num (z * p))) x ex ey
  | .bvlshr => evalShift Γ (fun z p => eoZdiv (.num z) (.num p)) x ex ey
  | .bvashr => ex.bind fun a => ey.bind fun b => (eoToZ b).bind fun n =>
    (bvBitwidth Γ x).bind fun w => (bvToSignedInt Γ a).bind fun z =>
    (eoZdiv (.num z) (.num (arithEvalIntPow2Num n))).bind (eoToBinLit (.num w))
  | .bvrepeat => ex.bind fun n => ey.bind fun b => evalRepeat n b
  | .signExtend => ex.bind fun n => ey.bind fun b => (bvBitwidth Γ b).bind fun w =>
    (eoAdd (.num w) n).bind fun m => (bvToSignedInt Γ b).bind fun z => eoToBinLit m (.num z)
  | .zeroExtend => ex.bind fun n => ey.bind fun b => (bvBitwidth Γ b).bind fun w =>
    (eoAdd (.num w) n).bind fun m => (eoToZ b).bind fun z => eoToBinLit m (.num z)
  | .bv => ey.bind fun m => ex.bind fun n => eoToBinLit m n
  | .intToBv => ex.bind fun n => ey.bind fun m => eoToBinLit n m
  | s => some (bop s x y)

/-- The cases of `$run_evaluate` for three arguments.  The bounds of `extract`
are used as they stand. -/
def evalTop (s : Sym) (x y z : Term) (ex ey ez : Option Term) : Option Term :=
  match s with
  | .ite => ex.bind fun c => (eoIte c ey ez).bind id
  | .extract => ez.bind fun b =>
    match x, y with
    | .num m, .num n => eoExtract b n m
    | _, _ => none
  | s => some (.app (bop s x y) z)

def runEvaluate : Term → Option Term
  | .app (.sym s) x => evalUop Γ s x (runEvaluate x)
  | .app (.app (.sym s) x) y => evalBop Γ s x y (runEvaluate x) (runEvaluate y)
  | .app (.app (.app (.sym s) x) y) z =>
    evalTop s x y z (runEvaluate x) (runEvaluate y) (runEvaluate z)
  | t => some t

def evaluate (t : Term) : Option Term := (runEvaluate Γ t).map fun v => bop .eq t v

end BitVectors

end EthosCpc
