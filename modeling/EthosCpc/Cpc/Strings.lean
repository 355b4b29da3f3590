import EthosCpc.Cpc.AciNorm
import EthosCpc.Cpc.ReEval

/-!
# String and regular expression terms as lists

The utilities of `programs/Strings.eo` that prepare a term for the rules on
prefixes and suffixes: introduction and elimination of the list form of
`str.++` and `re.++`, reversal, and the flat form in which a literal is the
list of its characters.

The programs are about strings and about sequences of any type.  The nil
terminator of a list follows from its type, so they depend on the types `Γ`
of the declared constants.
-/

namespace EthosCpc

open Term (bop uop)

/-- `(re.* re.allchar)`. -/
abbrev reSigmaStar : Term := uop .reStar (.sym .reAllchar)

variable (Γ : Nat → Ty)

/-- `($seq_empty (eo::typeof t))`. -/
def strNil (t : Term) : Option Term := (typeof Γ t).bind seqEmpty

def strSelfIfEmpty (t : Term) : Option Term :=
  (strNil Γ t).bind fun nil => if t = nil then some t else none

/-- `eo::list_rev` of `str.++`. -/
def strListRev (t : Term) : Option Term :=
  (nilFor Γ .strConcat t).bind fun nil => eoListRev (.sym .strConcat) nil t

def strRev (rev : Bool) (t : Term) : Option Term := if rev then strListRev Γ t else some t

def strReRev (rev : Bool) (r : Term) : Option Term :=
  if rev then eoListRev (.sym .reConcat) reEmpty r else some r

/-! ## Introduction and elimination of lists -/

def strNaryIntro (t : Term) : Option Term :=
  if t.isBop .strConcat then some t
  else (strNil Γ t).map fun nil => if t = nil then t else bop .strConcat t nil

def reNaryIntro (r : Term) : Term :=
  if r.isBop .reConcat then r
  else if r = reEmpty then r
  else bop .reConcat r reEmpty

def strNaryElim : Term → Option Term
  | .app (.app (.sym .strConcat) t) ss =>
    (strNil Γ t).map fun nil => if ss = nil then t else bop .strConcat t ss
  | t => strSelfIfEmpty Γ t

def reNaryElim : Term → Term
  | .app (.app (.sym .reConcat) t) ss => if ss = reEmpty then t else bop .reConcat t ss
  | t => t

/-! ## Words and characters -/

/-- `$str_check_length_one`: `eo::len` is stuck on all but literals. -/
def strCheckLengthOne : Term → Bool
  | .str s => decide (s.length = 1)
  | _ => false

def strCheckLenGtOne : Term → Bool
  | .str s => decide (1 < s.length)
  | _ => false

/-- `$str_flatten_word`, on a literal. -/
def strFlattenWord : Str → Term
  | [] => .str []
  | c :: s => bop .strConcat (.str [c]) (strFlattenWord s)

def strFlatten : Term → Option Term
  | .app (.app (.sym .strConcat) t) tail =>
    (strFlatten tail).bind fun u =>
      match t with
      | .str s =>
        if strCheckLenGtOne t then listConcat Γ .strConcat (strFlattenWord s) u
        else some (bop .strConcat t u)
      | _ => some (bop .strConcat t u)
  | t => strSelfIfEmpty Γ t

/-- `$str_collect_acc`: the literal in front of the list and the rest of it. -/
def strCollectAcc : Term → Option (Str × Term)
  | .app (.app (.sym .strConcat) t) tail =>
    match t with
    | .str s =>
      if strCheckLengthOne t then (strCollectAcc tail).map fun res => (s ++ res.1, res.2)
      else some ([], bop .strConcat t tail)
    | _ => some ([], bop .strConcat t tail)
  | .str [] => some ([], .str [])
  | _ => none

/-- `$str_collect`, with a bound on the number of calls. -/
def strCollectRec : Nat → Term → Option Term
  | 0, _ => none
  | k + 1, .app (.app (.sym .strConcat) t) s =>
    (strCollectAcc (bop .strConcat t s)).bind fun res =>
      if res.1 = [] then (strCollectRec k s).map fun u => bop .strConcat t u
      else (strCollectRec k res.2).map fun u => bop .strConcat (.str res.1) u
  | _ + 1, t => strSelfIfEmpty Γ t

/-- `$str_collect`.  Every call is on a shorter list. -/
def strCollect (t : Term) : Option Term := strCollectRec Γ t.size t

def strStripPrefix : Term → Term → Term × Term
  | .app (.app (.sym .strConcat) t) t2, .app (.app (.sym .strConcat) s) s2 =>
    if t = s then strStripPrefix t2 s2 else (bop .strConcat t t2, bop .strConcat s s2)
  | t, s => (t, s)

/-! ## Flat form -/

def strToFlatForm (s : Term) (rev : Bool) : Option Term :=
  (strNaryIntro Γ s).bind fun t => (strFlatten Γ t).bind (strRev Γ rev)

def strToNaryForm (s : Term) (rev : Bool) : Option Term := (strNaryIntro Γ s).bind (strRev Γ rev)

def strFromFlatForm (s : Term) (rev : Bool) : Option Term :=
  (strRev Γ rev s).bind fun t => (strCollect Γ t).bind (strNaryElim Γ)

def strFromNaryForm (s : Term) (rev : Bool) : Option Term :=
  (strRev Γ rev s).bind (strNaryElim Γ)

/-- A conversion of the strings that are elements of a `re.++` list. -/
def reStrMap (f : Term → Option Term) : Term → Option Term
  | .app (.app (.sym .reConcat) r1) r2 =>
    match r1 with
    | .app (.sym .strToRe) s =>
      (f s).bind fun u => (reStrMap f r2).map fun v => bop .reConcat (uop .strToRe u) v
    | r1 => (reStrMap f r2).map fun v => bop .reConcat r1 v
  | r => some r

def reStrToFlatForm (rev : Bool) : Term → Option Term := reStrMap fun s => strToFlatForm Γ s rev

def reToFlatForm (r : Term) (rev : Bool) : Option Term :=
  (strReRev rev (reNaryIntro r)).bind (reStrToFlatForm Γ rev)

def reStrFromFlatForm (rev : Bool) : Term → Option Term :=
  reStrMap fun s => strFromFlatForm Γ s rev

def reFromFlatForm (r : Term) (rev : Bool) : Option Term :=
  ((reStrFromFlatForm Γ rev r).bind (strReRev rev)).map reNaryElim

end EthosCpc
