import EthosCpc.Eunoia.Literal

/-!
# Evaluation of regular expressions

The programs of `programs/Strings.eo` that decide memberships by
derivatives and search for matches, and the rules `str-in-re-eval`,
`str-indexof-re-eval`, `str-replace-re-eval` and `str-replace-re-all-eval`
of `rules/Strings.eo`.

The programs take a literal apart from the left with `eo::extract`, so
they are recursions over its characters here.  A string term that is not a
literal is stuck as soon as a character is asked for.
-/

namespace EthosCpc

open Term (bop uop)

abbrev reEmpty : Term := uop .strToRe (.str [])

/-- The nil terminators of the three list operators on regular expressions. -/
def reNil : Sym → Term
  | .reUnion => .sym .reNone
  | .reInter => .sym .reAll
  | _ => reEmpty

/-- Is the term an application of the binary symbol? -/
def Term.isBop (s : Sym) : Term → Bool
  | .app (.app (.sym s') _) _ => decide (s' = s)
  | _ => false

/-! ## Derivatives -/

/-- `$re_nullable`, with its catch-all answer `false`. -/
def reNullable : Term → Bool
  | .sym .reAll => true
  | .app (.sym .strToRe) (.str []) => true
  | .app (.sym .reStar) _ => true
  | .app (.app (.sym .reUnion) r) rr => reNullable r || reNullable rr
  | .app (.app (.sym .reInter) r) rr => reNullable r && reNullable rr
  | .app (.app (.sym .reConcat) r) rr => reNullable r && reNullable rr
  | .app (.sym .reComp) r => !reNullable r
  | _ => false

/-- `eo::list_concat`, `eo::list_diff` and `eo::list_find` of a list operator on
regular expressions. -/
def reListConcat (f : Sym) (a b : Term) : Option Term := eoListConcat (.sym f) (reNil f) a b

def reListDiff (f : Sym) (a b : Term) : Option Term := eoListDiff (.sym f) (reNil f) a b

def reListFind (f : Sym) (a x : Term) : Option Int := eoListFind (.sym f) (reNil f) a x

/-- `(eo::ite (eo::is_neg (eo::list_find f l r)) (_ f r l) l)`: add an element to a list. -/
def reAcInsert (f : Sym) (l r : Term) : Option Term :=
  (reListFind f l r).map fun i => if i < 0 then bop f r l else l

/-- `$re_ac_merge`, for `re.union` and `re.inter`. -/
def reAcMerge (f : Sym) (r1 r2 : Term) : Option Term :=
  if f = .reUnion ∧ r1 = .sym .reNone then some r2
  else if f = .reInter ∧ r1 = .sym .reNone then some (.sym .reNone)
  else if r1 = r2 then some r1
  else if r1.isBop f ∧ r2.isBop f then (reListDiff f r1 r2).bind fun d => reListConcat f d r2
  else if r1.isBop f then reAcInsert f r1 r2
  else if r2.isBop f then reAcInsert f r2 r1
  else some (bop f r1 (bop f r2 (reNil f)))

def reConcatMerge (r1 r2 : Term) : Option Term :=
  if r1.isBop .reConcat ∧ r2.isBop .reConcat then reListConcat .reConcat r1 r2
  else if r1 = .sym .reNone then some (.sym .reNone)
  else if r2.isBop .reConcat then some (bop .reConcat r1 r2)
  else if r1 = reEmpty then some r2
  else if r2 = reEmpty then some r1
  else some (bop .reConcat r1 (bop .reConcat r2 reEmpty))

def compareGeq (x y : Int) : Bool := decide (x = y) || decide (x > y)

/-- The case `(str.to_re s1)` of `$derivative`: `eo::is_eq` is false for a string
that is not a literal. -/
def derivativeToRe (c : CodePoint) : Term → Term
  | .str (d :: s) => if d = c then uop .strToRe (.str s) else .sym .reNone
  | _ => .sym .reNone

def derivative (c : CodePoint) : Term → Option Term
  | .app (.app (.sym .reUnion) r) rr =>
    (derivative c r).bind fun d => (derivative c rr).bind fun dd => reAcMerge .reUnion d dd
  | .app (.app (.sym .reConcat) r) rr =>
    if reNullable r then
      (derivative c rr).bind fun dd => (derivative c r).bind fun d =>
        (reConcatMerge d rr).bind fun m => reAcMerge .reUnion dd m
    else (derivative c r).bind fun d => reConcatMerge d rr
  | .app (.app (.sym .reInter) r) rr =>
    (derivative c r).bind fun d => (derivative c rr).bind fun dd => reAcMerge .reInter d dd
  | .app (.sym .reComp) r => (derivative c r).map fun d => uop .reComp d
  | .app (.sym .reStar) r =>
    (derivative c r).bind fun d => reConcatMerge d (uop .reStar r)
  | .app (.sym .strToRe) s =>
    if s = .str [] then some (.sym .reNone) else some (derivativeToRe c s)
  | .app (.app (.sym .reRange) s1) s2 =>
    (eoToZ s1).bind fun z1 => (eoToZ s2).map fun z2 =>
      if compareGeq c.val z1 && compareGeq z2 c.val then reEmpty else .sym .reNone
  | .sym .reNone => some (.sym .reNone)
  | .sym .reAll => some (.sym .reAll)
  | .sym .reAllchar => some reEmpty
  | _ => none

/-- `$str_eval_str_in_re` on a literal. -/
def strEvalStrInReLit : Str → Term → Option Bool
  | [], r => some (reNullable r)
  | c :: s, r =>
    if r = .sym .reNone then some false else (derivative c r).bind (strEvalStrInReLit s)

def strEvalStrInRe : Term → Term → Option Bool
  | .str s, r => strEvalStrInReLit s r
  | _, r => if r = .sym .reNone then some false else none

/-! ## The first match -/

/-- `$str_first_match_rec_smallest`: the lengths from `m` on are tried. -/
def strFirstMatchRecSmallest (s : Str) (r : Term) : Nat → Nat → Option Nat
  | 0, m => (strEvalStrInReLit (s.take m) r).bind fun b => if b then some m else none
  | k + 1, m =>
    (strEvalStrInReLit (s.take m) r).bind fun b =>
      if b then some m else strFirstMatchRecSmallest s r k (m + 1)

/-- `$str_first_match_rec`, with `none` in place of the pair of `-1`. -/
def strFirstMatchRec (r rs : Term) : Str → Nat → Option (Option (Nat × Nat))
  | [], n =>
    (strEvalStrInReLit [] rs).bind fun b =>
      if b then (strFirstMatchRecSmallest [] r 0 0).map fun m => some (n, n + m)
      else some none
  | c :: s, n =>
    (strEvalStrInReLit (c :: s) rs).bind fun b =>
      if b then
        (strFirstMatchRecSmallest (c :: s) r (c :: s).length 0).map fun m => some (n, n + m)
      else strFirstMatchRec r rs s (n + 1)

def strFirstMatch (s : Str) (r : Term) : Option (Option (Nat × Nat)) :=
  strFirstMatchRec r (bop .reConcat r (bop .reConcat (.sym .reAll) reEmpty)) s 0

/-! ## The rules -/

def strEvalIndexofRe (s : Str) (r : Term) (n : Int) : Option Int :=
  if n > s.length ∨ n < 0 then some (-1)
  else (strFirstMatch (s.drop n.toNat) r).map fun p =>
    match p with
    | some p => n + p.1
    | none => -1

def strEvalReplaceRe (s : Str) (t : Term) : Option (Nat × Nat) → Term
  | none => .str s
  | some p =>
    bop .strConcat (.str (s.take p.1))
      (bop .strConcat t (bop .strConcat (.str (s.drop p.2)) (.str [])))

/-- `$str_eval_replace_re_all_rec`.  A match that is not empty shortens the string,
so its length bounds the recursion. -/
def strEvalReplaceReAllRec (r t : Term) : Nat → Str → Option (Nat × Nat) → Option Term
  | _, [], none => some (.str [])
  | _, s, none => some (bop .strConcat (.str s) (.str []))
  | 0, _, some _ => none
  | k + 1, s, some p =>
    (strFirstMatch (s.drop p.2) r).bind fun q =>
      (strEvalReplaceReAllRec r t k (s.drop p.2) q).map fun u =>
        bop .strConcat (.str (s.take p.1)) (bop .strConcat t u)

/-- The expression that `$str_eval_replace_re_all` searches for. -/
def reNonEmpty (r : Term) : Term :=
  bop .reInter r (bop .reInter (uop .reComp reEmpty) (.sym .reAll))

def strEvalReplaceReAll (s : Str) (r t : Term) : Option Term :=
  (strFirstMatch s (reNonEmpty r)).bind fun p =>
    (strEvalReplaceReAllRec (reNonEmpty r) t (s.length + 1) s p).bind
      (eoListSingletonElim (.sym .strConcat) (.str []))

def strInReEval (s r : Term) : Option Term :=
  (strEvalStrInRe s r).map fun b => bop .eq (bop .strInRe s r) (.bool b)

def strIndexofReEval : Term → Term → Term → Option Term
  | .str s, r, .num n =>
    (strEvalIndexofRe s r n).map fun m =>
      bop .eq (.app (bop .strIndexofRe (.str s) r) (.num n)) (.num m)
  | _, _, _ => none

def strReplaceReEval : Term → Term → Term → Option Term
  | .str s, r, t =>
    (strFirstMatch s r).map fun p =>
      bop .eq (.app (bop .strReplaceRe (.str s) r) t) (strEvalReplaceRe s t p)
  | _, _, _ => none

def strReplaceReAllEval : Term → Term → Term → Option Term
  | .str s, r, t =>
    (strEvalReplaceReAll s r t).map fun u =>
      bop .eq (.app (bop .strReplaceReAll (.str s) r) t) u
  | _, _, _ => none

end EthosCpc
