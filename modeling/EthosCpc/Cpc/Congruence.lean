import EthosCpc.Hol.Binding

/-!
# Equality, congruence and scope

The rules of `rules/Uf.eo` for equality and congruence, `scope` and
`process_scope` of `rules/Builtin.eo`, and `resolution`, over terms with
binders.  A proof is a tree of steps that ends in assumptions; `scope`
discharges one of them.

The congruence programs take a term apart as a curried application
whatever its head is.  For them `((forall xs) F)` is one more application,
so a premise `(= F G)` may replace the body of a quantifier.
`Rule.crossed` collects the binders under which a step does so.
-/

namespace EthosCpc.Hol

open EthosCpc.Hol.Term (bop uop)

/-! ## Lists of premises and clauses -/

/-- A `:premise-list` that is collected with `and`. -/
def mkAnd : List Term → Term
  | [] => .bool true
  | F :: Fs => bop .and F (mkAnd Fs)

/-- The clause with the given elements. -/
def mkOr : List Term → Term
  | [] => .bool false
  | x :: xs => bop .or x (mkOr xs)

/-- The elements of an `or`-list that ends in `false`. -/
def orList : Term → Option (List Term)
  | .app (.app (.sym .or) a) b => (orList b).map (a :: ·)
  | .bool false => some []
  | _ => none

/-- `eo::list_erase or`. -/
def orListErase (C l : Term) : Option Term := (orList C).map fun xs => mkOr (xs.erase l)

/-- `eo::list_concat or`. -/
def orListConcat (C D : Term) : Option Term :=
  (orList C).bind fun xs => (orList D).map fun ys => mkOr (xs ++ ys)

def eoIte : Term → Term → Term → Option Term
  | .bool true, a, _ => some a
  | .bool false, _, b => some b
  | _, _, _ => none

/-! ## Equality -/

def mkSymm : Term → Option Term
  | .app (.app (.sym .eq) t1) t2 => some (bop .eq t2 t1)
  | .app (.sym .not) (.app (.app (.sym .eq) t1) t2) => some (uop .not (bop .eq t2 t1))
  | _ => none

def mkTrans (t1 : Term) : Term → Term → Option Term
  | t2, .app (.app (.sym .and) (.app (.app (.sym .eq) t3) t4)) tail =>
    if t2 = t3 then mkTrans t1 t4 tail else none
  | t2, .bool true => some (bop .eq t1 t2)
  | _, _ => none

def trans : Term → Option Term
  | .app (.app (.sym .and) (.app (.app (.sym .eq) t1) t2)) tail => mkTrans t1 t2 tail
  | _ => none

/-! ## Congruence -/

def mkCongRhs : Term → Term → Option Term
  | .app f t1, .app (.app (.sym .and) (.app (.app (.sym .eq) s1) t2)) tail =>
    if s1 = t1 then (mkCongRhs f tail).map fun g => .app g t2 else none
  | f, .bool true => some f
  | _, _ => none

/-- Rule `cong`; `eo::list_rev` puts the premises in reverse order. -/
def cong (t : Term) (Fs : List Term) : Option Term :=
  (mkCongRhs t (mkAnd Fs.reverse)).map fun u => bop .eq t u

def mkNaryCongRhs : Term → Term → Option Term
  | .app (.app f s1) t, .app (.app (.sym .and) (.app (.app (.sym .eq) r1) s2)) tail =>
    if r1 = s1 then (mkNaryCongRhs t tail).map fun u => .app (.app f s2) u else none
  | nil, .bool true => some nil
  | _, _ => none

def naryCong (t E : Term) : Option Term := (mkNaryCongRhs t E).map fun u => bop .eq t u

def pairwiseCong : Term → Term → Option Term
  | .app f xs, E => (mkNaryCongRhs xs E).map fun ys => bop .eq (.app f xs) (.app f ys)
  | _, _ => none

def mkHoCong : Term → Term → Term → Option Term
  | f1, f2, .app (.app (.sym .and) (.app (.app (.sym .eq) t1) t2)) tail =>
    mkHoCong (.app f1 t1) (.app f2 t2) tail
  | t1, t2, .bool true => some (bop .eq t1 t2)
  | _, _, _ => none

def hoCong : Term → Option Term
  | .app (.app (.sym .and) (.app (.app (.sym .eq) t1) t2)) tail => mkHoCong t1 t2 tail
  | _ => none

/-! ## Truth values -/

def trueElim : Term → Option Term
  | .app (.app (.sym .eq) F) (.bool true) => some F
  | _ => none

def falseIntro : Term → Option Term
  | .app (.sym .not) F => some (bop .eq F (.bool false))
  | _ => none

def falseElim : Term → Option Term
  | .app (.app (.sym .eq) F) (.bool false) => some (uop .not F)
  | _ => none

/-! ## Scopes -/

def extractAntecRec (F C : Term) : Option Term :=
  if F = C then some (.bool true)
  else
    match F with
    | .app (.app (.sym .imp) F1) F2 => (extractAntecRec F2 C).map (bop .and F1)
    | _ => none

def extractAntec (F C : Term) : Option Term :=
  match F with
  | .app (.app (.sym .imp) F1) D => if D = C then some F1 else extractAntecRec F C
  | _ => extractAntecRec F C

def runProcessScope (F C : Term) : Option Term :=
  if C = .bool false then (extractAntec F C).map (uop .not)
  else (extractAntec F C).map fun A => bop .imp A C

/-! ## Resolution -/

def toClause : Term → Term
  | .app (.app (.sym .or) F1) F2 => bop .or F1 F2
  | .bool false => .bool false
  | F1 => bop .or F1 (.bool false)

def fromClause : Term → Term
  | .app (.app (.sym .or) F1) F2 => if F2 = .bool false then F1 else bop .or F1 F2
  | F1 => F1

def removeMaybeSelf (l C : Term) : Option Term :=
  if l = C then some (.bool false) else orListErase C l

def resolve (C1 C2 pol L : Term) : Option Term :=
  (eoIte pol L (uop .not L)).bind fun lp =>
  (eoIte pol (uop .not L) L).bind fun ln =>
  (removeMaybeSelf lp (toClause C1)).bind fun D1 =>
  (removeMaybeSelf ln (toClause C2)).bind fun D2 =>
  (orListConcat D1 D2).map fromClause

/-! ## Proofs -/

/-- The rules with their arguments. -/
inductive Rule
  | refl (t : Term)
  | symm
  | trans
  | cong (t : Term)
  | naryCong (t : Term)
  | pairwiseCong (t : Term)
  | hoCong
  | trueIntro
  | trueElim
  | falseIntro
  | falseElim
  | processScope (C : Term)
  | resolution (pol L : Term)

def Rule.conclude : Rule → List Term → Option Term
  | .refl t, [] => some (bop .eq t t)
  | .symm, [F] => mkSymm F
  | .trans, Fs => Hol.trans (mkAnd Fs)
  | .cong t, Fs => Hol.cong t Fs
  | .naryCong t, Fs => Hol.naryCong t (mkAnd Fs)
  | .pairwiseCong t, Fs => Hol.pairwiseCong t (mkAnd Fs)
  | .hoCong, Fs => Hol.hoCong (mkAnd Fs)
  | .trueIntro, [F] => some (bop .eq F (.bool true))
  | .trueElim, [F] => Hol.trueElim F
  | .falseIntro, [F] => Hol.falseIntro F
  | .falseElim, [F] => Hol.falseElim F
  | .processScope C, [F] => runProcessScope F C
  | .resolution pol L, [C1, C2] => resolve C1 C2 pol L
  | _, _ => none

/-- A proof.  `scope F p` is the step that closes the scope of the assumption `F`. -/
inductive Proof
  | assume (F : Term)
  | step (r : Rule) (ps : List Proof)
  | scope (F : Term) (p : Proof)

mutual

def Proof.conclusion : Proof → Option Term
  | .assume F => some F
  | .step r ps => (conclusions ps).bind r.conclude
  | .scope F p => p.conclusion.map (bop .imp F)

def conclusions : List Proof → Option (List Term)
  | [] => some []
  | p :: ps => p.conclusion.bind fun F => (conclusions ps).map (F :: ·)

end

mutual

def Proof.assumptions : Proof → List Term
  | .assume F => [F]
  | .step _ ps => assumptionsOf ps
  | .scope F p => p.assumptions.filter (· ≠ F)

def assumptionsOf : List Proof → List Term
  | [] => []
  | p :: ps => p.assumptions ++ assumptionsOf ps

end

/-! ## Congruence under a binder -/

/-- Some equality of a list of premises has two different sides. -/
def changes : Term → Bool
  | .app (.app (.sym .and) (.app (.app (.sym .eq) a) b)) tail => a ≠ b || changes tail
  | _ => false

def boundList (f : Term) : List Term :=
  match f.binder? with
  | some (_, xs) => [xs]
  | none => []

/-- The variable lists of the binders that `$mk_cong_rhs` rewrites, in their list or in their
body. -/
def congCrossed : Term → Term → List Term
  | .app f _, .app (.app (.sym .and) F) tail =>
    (if changes (bop .and F tail) then boundList f else []) ++ congCrossed f tail
  | _, _ => []

/-- The same for `$mk_nary_cong_rhs`, which takes two arguments at a time: the binder may wait for
the first of them or for the second. -/
def naryCrossed : Term → Term → List Term
  | .app (.app f s1) t, .app (.app (.sym .and) F) tail =>
    (if changes (bop .and F tail) then boundList (.app f s1) else []) ++
      (if changes (bop .and F (.bool true)) then boundList f else []) ++ naryCrossed t tail
  | _, _ => []

/-- The same for `pairwise_cong`. -/
def pairwiseCrossed : Term → Term → List Term
  | .app f xs, E => (if changes E then boundList f else []) ++ naryCrossed xs E
  | _, _ => []

/-- The variable lists of the binders under which a step rewrites. -/
def Rule.crossed : Rule → List Term → List Term
  | .cong t, Fs => congCrossed t (mkAnd Fs.reverse)
  | .naryCong t, Fs => naryCrossed t (mkAnd Fs)
  | .pairwiseCong t, Fs => pairwiseCrossed t (mkAnd Fs)
  | _, _ => []

/-- No variable of the list `xs` is free in the formulas `Δ`. -/
def Fresh (Δ : List Term) (xs : Term) : Prop :=
  ∀ v ∈ xs.varList.getD [], ∀ A ∈ Δ, v ∉ A.freeVars

instance (Δ : List Term) (xs : Term) : Decidable (Fresh Δ xs) :=
  inferInstanceAs (Decidable (∀ v ∈ _, ∀ A ∈ _, _))

mutual

/-- Where a step of the proof rewrites under a binder, no assumption that its premises rest on
and that is not discharged yet mentions a variable of this binder. -/
def Proof.Fresh : Proof → Prop
  | .assume _ => True
  | .step r ps => FreshAll ps ∧
      ∀ Fs ∈ conclusions ps, ∀ xs ∈ r.crossed Fs, Hol.Fresh (assumptionsOf ps) xs
  | .scope _ p => p.Fresh

def FreshAll : List Proof → Prop
  | [] => True
  | p :: ps => p.Fresh ∧ FreshAll ps

end

mutual

def Proof.decidableFresh : (p : Proof) → Decidable p.Fresh
  | .assume _ => inferInstanceAs (Decidable True)
  | .step r ps =>
    have := decidableFreshAll ps
    inferInstanceAs (Decidable (FreshAll ps ∧
      ∀ Fs ∈ conclusions ps, ∀ xs ∈ r.crossed Fs, Hol.Fresh (assumptionsOf ps) xs))
  | .scope _ p => p.decidableFresh

def decidableFreshAll : (ps : List Proof) → Decidable (FreshAll ps)
  | [] => inferInstanceAs (Decidable True)
  | p :: ps =>
    have := p.decidableFresh
    have := decidableFreshAll ps
    inferInstanceAs (Decidable (p.Fresh ∧ FreshAll ps))

end

instance (p : Proof) : Decidable p.Fresh := p.decidableFresh

section Formulas

variable (Γ : Sig)

def Proof.IsFormula (p : Proof) : Prop := ∀ F ∈ p.conclusion, HasTy Γ F .bool

mutual

/-- All steps of the proof conclude formulas, which the checker verifies when it types them. -/
def Proof.WellTyped : Proof → Prop
  | .assume F => HasTy Γ F .bool
  | .step r ps => WellTypedAll ps ∧ (Proof.step r ps).IsFormula Γ
  | .scope F p => p.WellTyped ∧ HasTy Γ F .bool

def WellTypedAll : List Proof → Prop
  | [] => True
  | p :: ps => p.WellTyped ∧ WellTypedAll ps

end

instance (p : Proof) : Decidable (p.IsFormula Γ) :=
  inferInstanceAs (Decidable (∀ F ∈ p.conclusion, HasTy Γ F .bool))

mutual

def Proof.decidableWellTyped : (p : Proof) → Decidable (p.WellTyped Γ)
  | .assume F => inferInstanceAs (Decidable (HasTy Γ F .bool))
  | .step r ps =>
    have := decidableWellTypedAll ps
    inferInstanceAs (Decidable (WellTypedAll Γ ps ∧ (Proof.step r ps).IsFormula Γ))
  | .scope F p =>
    have := p.decidableWellTyped
    inferInstanceAs (Decidable (p.WellTyped Γ ∧ HasTy Γ F .bool))

def decidableWellTypedAll : (ps : List Proof) → Decidable (WellTypedAll Γ ps)
  | [] => inferInstanceAs (Decidable True)
  | p :: ps =>
    have := p.decidableWellTyped
    have := decidableWellTypedAll ps
    inferInstanceAs (Decidable (p.WellTyped Γ ∧ WellTypedAll Γ ps))

end

instance (p : Proof) : Decidable (p.WellTyped Γ) := p.decidableWellTyped Γ

end Formulas

end EthosCpc.Hol
