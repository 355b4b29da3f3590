import EthosCpc.Eunoia.Builtins

/-!
# Resolution rules

The clausal rules of `rules/Booleans.eo`: `resolution`,
`chain_resolution`, `chain_m_resolution`, `factoring` and `reordering`,
with the programs they run.

A clause is an `or`-list that ends in `false`.  The rules accept any
formula where a clause is expected, so a formula that is not an `or`-list
is read as a unit clause, and a pivot may itself be an `or`-term.  The
chain rules process the premises from the right.  They keep the clause
obtained so far and the list of pivots that earlier clauses may still drop,
and they remove a whole batch of pivots from each clause with
`eo::list_diff`.

The argument for a chain is one invariant, `ChainInv`: either the clause
obtained so far is true, or every pivot on the list is false.
-/

namespace EthosCpc

open Term (bop uop)

/-! ## Boolean interpretations -/

/-- Truth of a formula when `v` says which atoms are true.  Every term whose
head is not one of the propositional connectives below is an atom, and `v`
ranges over all assignments to atoms, so in particular over those that
respect a theory. -/
def holds (v : Term → Prop) : Term → Prop
  | .bool b => b = true
  | .app (.sym .not) a => ¬ holds v a
  | .app (.app (.sym .or) a) b => holds v a ∨ holds v b
  | .app (.app (.sym .and) a) b => holds v a ∧ holds v b
  | .app (.app (.sym .imp) a) b => holds v a → holds v b
  | .app (.app (.sym .xor) a) b => ¬ (holds v a ↔ holds v b)
  | t => v t

abbrev orList (e : Term) : Option (List Term) := getNAryChildren (.sym .or) (.bool false) e

/-- The clause with the given elements. -/
def mkOr (xs : List Term) : Term := prependNAryChildren (.sym .or) (.bool false) xs

@[simp] lemma mkOr_nil : mkOr [] = .bool false := rfl

@[simp] lemma mkOr_cons (x : Term) (xs : List Term) : mkOr (x :: xs) = bop .or x (mkOr xs) := rfl

lemma mkOr_eq (xs : List Term) : mkOr xs = prependNAryChildren (.sym .or) (.bool false) xs := rfl

lemma eq_mkOr_of_orList {e : Term} {xs : List Term} (h : orList e = some xs) :
    e = mkOr xs := eq_of_getNAryChildren h

lemma orList_mkOr (xs : List Term) : getNAryChildren (.sym .or) (.bool false) (mkOr xs) = some xs :=
  getNAryChildren_prepend rfl xs

lemma mkOr_injective : Function.Injective mkOr := by
  intro xs ys h
  have := congrArg (getNAryChildren (.sym .or) (.bool false)) h
  rw [orList_mkOr, orList_mkOr] at this
  exact Option.some.inj this

section Holds

variable (v : Term → Prop)

@[simp] lemma holds_true : holds v (.bool true) ↔ True := iff_of_true rfl trivial

@[simp] lemma holds_false : holds v (.bool false) ↔ False := iff_of_false nofun id

@[simp] lemma holds_not (a : Term) : holds v (uop .not a) ↔ ¬ holds v a := Iff.rfl

@[simp] lemma holds_or (a b : Term) : holds v (bop .or a b) ↔ holds v a ∨ holds v b :=
  Iff.rfl

@[simp] lemma holds_and (a b : Term) : holds v (bop .and a b) ↔ holds v a ∧ holds v b :=
  Iff.rfl

@[simp] lemma holds_const (n : Nat) : holds v (.const n) ↔ v (.const n) := Iff.rfl

lemma holds_mkOr (xs : List Term) : holds v (mkOr xs) ↔ ∃ x ∈ xs, holds v x := by
  induction xs with
  | nil => simp
  | cons x xs ih =>
    rw [mkOr_cons, holds_or, ih]
    simp

lemma holds_mkAnd (Fs : List Term) : holds v (mkAnd Fs) ↔ ∀ F ∈ Fs, holds v F := by
  induction Fs with
  | nil => simp
  | cons F Fs ih =>
    rw [mkAnd_cons, holds_and, ih]
    simp

lemma holds_iff_of_orList {e : Term} {xs : List Term} (h : orList e = some xs) :
    holds v e ↔ ∃ x ∈ xs, holds v x := by
  rw [eq_mkOr_of_orList h]
  exact holds_mkOr v xs

end Holds

/-! ## The programs -/

def toClause : Term → Term
  | .app (.app (.sym .or) F1) F2 => bop .or F1 F2
  | .bool false => .bool false
  | F1 => bop .or F1 (.bool false)

def fromClause : Term → Term
  | .app (.app (.sym .or) F1) F2 => if F2 = .bool false then F1 else bop .or F1 F2
  | F1 => F1

def removeMaybeSelf (l C : Term) : Option Term :=
  if l = C then some (.bool false) else eoListErase (.sym .or) (.bool false) C l

def resolve (C1 C2 pol L : Term) : Option Term :=
  (eoIte pol L (uop .not L)).bind fun lp =>
  (eoIte pol (uop .not L) L).bind fun ln =>
  (removeMaybeSelf lp (toClause C1)).bind fun D1 =>
  (removeMaybeSelf ln (toClause C2)).bind fun D2 =>
  (eoListConcat (.sym .or) (.bool false) D1 D2).map fromClause

def chainMResolveRecStep (p : Term × Term) (Cc pol L : Term) : Option (Term × Term) :=
  (eoIte pol L (uop .not L)).bind fun lp =>
  (eoIte pol (uop .not L) L).bind fun ln =>
  if ln = Cc then some (p.1, bop .or lp p.2)
  else
    (eoListDiff (.sym .or) (.bool false) Cc (bop .or ln p.2)).bind fun D =>
    (eoListConcat (.sym .or) (.bool false) D p.1).map fun C => (C, bop .or lp p.2)

def chainMResolveRec : Term → Term → Term → Option (Term × Term)
  | .bool true, .sym .listNil, .sym .listNil => some (.bool false, .bool false)
  | .app (.app (.sym .and) C1) Cs, .app (.app (.sym .listCons) pol) pols,
      .app (.app (.sym .listCons) L) lits =>
      (chainMResolveRec Cs pols lits).bind fun p => chainMResolveRecStep p C1 pol L
  | _, _, _ => none

def chainMResolveFinal (C1 : Term) : Term × Term → Option Term
  | (C2, .app (.app (.sym .or) L) rl) =>
    if C1 = L then some C2
    else
      (eoListDiff (.sym .or) (.bool false) C1 (bop .or L rl)).bind fun D =>
      eoListConcat (.sym .or) (.bool false) D C2
  | _ => none

def chainMResolve (C pols lits : Term) : Option Term :=
  match C with
  | .app (.app (.sym .and) C1) C2 =>
    (chainMResolveRec C2 pols lits).bind (chainMResolveFinal C1)
  | _ => none

/-! ## The rules -/

def resolution (C1 C2 pol L : Term) : Option Term := resolve C1 C2 pol L

def chainResolution (Fs : List Term) (pols lits : Term) : Option Term :=
  (chainMResolve (mkAnd Fs) pols lits).map fromClause

/-- The clause `Cc` that the side condition of `chain_m_resolution` computes. -/
def chainMResolvent (Fs : List Term) (pols lits : Term) : Option Term :=
  (chainMResolve (mkAnd Fs) pols lits).bind (eoListSetof (.sym .or) (.bool false))

/-- The test of `chain_m_resolution` on the computed clause `Cc` and the
requested conclusion `Cr`. -/
def chainMTest (Cc Cr : Term) : Option Term :=
  if fromClause Cc = Cr then some (.bool true)
  else eoListMinclude (.sym .or) (.bool false) Cr Cc

def chainMResolution (Fs : List Term) (Cr pols lits : Term) : Option Term :=
  if (chainMResolvent Fs pols lits).bind (chainMTest · Cr) = some (.bool true) then some Cr
  else none

def factoring (C : Term) : Option Term :=
  (eoListSetof (.sym .or) (.bool false) C).map fromClause

def reordering (C1 C2 : Term) : Option Term :=
  if eoListMinclude (.sym .or) (.bool false) C1 C2 = some (.bool true) then some C2 else none

end EthosCpc
