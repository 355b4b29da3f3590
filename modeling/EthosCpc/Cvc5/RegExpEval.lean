import EthosCpc.Semantics.Strings

/-!
# Membership of constant strings in cvc5

`RegExpEntail::testConstStringInRegExp` of `theory/strings/regexp_entail.cpp`
with its backtracking search `testConstStringInRegExpInternal`, and the
automata of `theory/strings/regexp_eval.cpp` (`NfaState`, `canEvaluate`,
`evaluate`), for constant regular expressions without bounded repetition.

The states of an automaton are numbered in the order of their allocation; the
accepting state is the first.  The search is given fuel, one unit for each call
and each turn of a loop; where it has no result it either ran out of fuel or
incremented an `int` past its range.
-/

namespace EthosCpc.Cvc5

/-- Constant regular expressions.  A concatenation has two children or more. -/
inductive Regex
  | toRe (w : Str) | concat (r₁ r₂ : Regex) (rs : List Regex) | union (rs : List Regex)
  | inter (rs : List Regex) | star (r : Regex) | comp (r : Regex) | none | allchar
  | range (a b : CodePoint)

/-! ## Automata -/

/-- The annotation of an edge, absent for the null node. -/
inductive NfaEdge
  | char (c : CodePoint) | range (a b : CodePoint) | allchar
  deriving DecidableEq, Repr

/-- `NfaState`: the edges from the state, and its dangling arrows. -/
structure NfaState where
  children : List (Option NfaEdge × Nat)
  arrows : List (Nat × Option NfaEdge)
  deriving DecidableEq, Repr

/-- `scache`: the states allocated so far. -/
structure NfaCache where
  size : Nat
  state : Nat → NfaState

namespace NfaCache

def allocateState (h : NfaCache) : Nat × NfaCache :=
  (h.size, { size := h.size + 1, state := Function.update h.state h.size ⟨[], []⟩ })

/-- `d_children[e].push_back(q)`. -/
def addChild (h : NfaCache) (p : Nat) (e : Option NfaEdge) (q : Nat) : NfaCache :=
  let st := h.state p
  { h with state := Function.update h.state p ⟨st.children ++ [(e, q)], st.arrows⟩ }

def setArrows (h : NfaCache) (p : Nat) (arrows : List (Nat × Option NfaEdge)) : NfaCache :=
  { h with state := Function.update h.state p ⟨(h.state p).children, arrows⟩ }

/-- The loop of `connectTo`. -/
def connectArrows (q : Nat) (h : NfaCache) : List (Nat × Option NfaEdge) → NfaCache
  | [] => h
  | (p, e) :: arrows => connectArrows q (h.addChild p e q) arrows

def connectTo (h : NfaCache) (p q : Nat) : NfaCache :=
  (connectArrows q h (h.state p).arrows).setArrows p []

end NfaCache

/-- The loop over the characters of a constant: `s` is its first state, `curr` the last one. -/
def constructString (s : Nat) : Str → Nat → NfaCache → NfaCache
  | [], _, h => h
  | [c], curr, h => h.setArrows s ((h.state s).arrows ++ [(curr, some (.char c))])
  | c :: cs, curr, h =>
    let (next, h) := h.allocateState
    constructString s cs next (h.addChild curr (some (.char c)) next)

mutual

def constructInternal : Regex → NfaCache → Nat × NfaCache
  | .concat r₁ r₂ rs, h =>
    let (first, h) := constructInternal r₁ h
    let (rcs, h) := constructInternal r₂ h
    let (curr, h) := constructConcat rs rcs (h.connectTo first rcs)
    (first, (h.setArrows first (h.state curr).arrows).setArrows curr [])
  | .toRe w, h =>
    let (s, h) := h.allocateState
    (s, if w = [] then h.setArrows s [(s, none)] else constructString s w s h)
  | .allchar, h =>
    let (s, h) := h.allocateState
    (s, h.setArrows s [(s, some .allchar)])
  | .range a b, h =>
    let (s, h) := h.allocateState
    (s, h.setArrows s [(s, some (.range a b))])
  | .union rs, h =>
    let (s, h) := h.allocateState
    (s, constructUnion rs s h)
  | .star r, h =>
    let (s, h) := h.allocateState
    let (body, h) := constructInternal r h
    let h := (h.addChild s none body).connectTo body s
    (s, h.setArrows s ((h.state s).arrows ++ [(s, none)]))
  | .inter _, h | .comp _, h | .none, h => h.allocateState

/-- The loop over the children of a concatenation. -/
def constructConcat : List Regex → Nat → NfaCache → Nat × NfaCache
  | [], curr, h => (curr, h)
  | r :: rs, curr, h =>
    let (rcs, h) := constructInternal r h
    constructConcat rs rcs (h.connectTo curr rcs)

/-- The loop over the children of a union. -/
def constructUnion : List Regex → Nat → NfaCache → NfaCache
  | [], _, h => h
  | r :: rs, s, h =>
    let (rcs, h) := constructInternal r h
    let h := h.addChild s none rcs
    let h := h.setArrows s ((h.state s).arrows ++ (h.state rcs).arrows)
    constructUnion rs s (h.setArrows rcs [])

end

def construct (r : Regex) (accept : Nat) (h : NfaCache) : Nat × NfaCache :=
  let (rs, h) := constructInternal r h
  (rs, h.connectTo rs accept)

/-- Does the edge accept the character? -/
def NfaEdge.accepts (c : CodePoint) : NfaEdge → Bool
  | .char d => decide (c = d)
  | .range a b => decide (a ≤ c ∧ c ≤ b)
  | .allchar => true

/-- `addToNext`, as deep as the fuel allows. -/
def addToNext (h : NfaCache) : Nat → Nat → List Nat → List Nat
  | 0, _, next => next
  | k + 1, q, next =>
    if q ∈ next then next
    else (h.state q).children.foldl
      (fun next child => if child.1 = none then addToNext h k child.2 next else next) (q :: next)

def processNextChar (h : NfaCache) (c : CodePoint) (next : List Nat) (q : Nat) : List Nat :=
  (h.state q).children.foldl (fun next child => match child.1 with
      | none => next
      | some e => if e.accepts c then addToNext h (h.size + 1) child.2 next else next) next

/-- The loop of `evaluate` over the characters. -/
def evaluateFrom (h : NfaCache) (accept : Nat) : Str → List Nat → Bool
  | [], curr => decide (accept ∈ curr)
  | c :: s, curr =>
    let next := curr.foldl (processNextChar h c) []
    if next = [] then false else evaluateFrom h accept s next

def evaluate (s : Str) (r : Regex) : Bool :=
  let (accept, h) := NfaCache.allocateState ⟨0, fun _ => ⟨[], []⟩⟩
  let (rs, h) := construct r accept h
  evaluateFrom h accept s (addToNext h (h.size + 1) rs [])

mutual

def canEvaluate : Regex → Bool
  | .toRe _ | .range _ _ | .allchar => true
  | .concat r₁ r₂ rs => canEvaluate r₁ && canEvaluate r₂ && canEvaluateAll rs
  | .union rs => canEvaluateAll rs
  | .star r => canEvaluate r
  | .inter _ | .comp _ | .none => false

/-- `canEvaluate` on the children. -/
def canEvaluateAll : List Regex → Bool
  | [] => true
  | r :: rs => canEvaluate r && canEvaluateAll rs

end

/-! ## Backtracking -/

/-- The value of a `size_t` as an `unsigned`. -/
def toUnsigned (n : Nat) : Nat := n % 4294967296

/-- The value of a `size_t` as an `int`. -/
def toInt (n : Nat) : Int := Int.bmod n 4294967296

/-- `++` on an `int`. -/
def incr (n : Int) : Option Int := if n + 1 < 2147483648 then some (n + 1) else none

/-- The local variables of the search through a concatenation. -/
structure ConcatState where
  i : Int
  start : Int
  left : Int
  vecK : Nat → Int

/-- `--i` and the restoring of the positions. -/
def ConcatState.back (st : ConcatState) : ConcatState :=
  let i := st.i - 1
  if 0 ≤ i then
    { st with i := i, start := st.start - st.vecK i.toNat, left := st.left + st.vecK i.toNat }
  else { st with i := i }

section Search

variable (test : Str → Nat → Regex → Option Bool)

/-- The `for` loop of a component: the first length from `v` on at which it matches. -/
def scan (s : Str) (pos : Nat) (left : Int) (r : Regex) : Nat → Int → Option (Option Int)
  | 0, _ => none
  | k + 1, v =>
    if v ≤ left then
      (test ((s.drop pos).take v.toNat) 0 r).bind fun b =>
        if b then some (some v) else (incr v).bind (scan s pos left r k)
    else some none

/-- The `while` loop of a concatenation. -/
def concatLoop (s : Str) (indexStart : Nat) (rs : List Regex) : Nat → ConcatState → Option Bool
  | 0, _ => none
  | k + 1, st =>
    if st.i < rs.length then
      if st.i = rs.length - 1 then
        (test s (indexStart + st.start.toNat) (rs.getD st.i.toNat .none)).bind fun b =>
          if b then some true else concatLoop s indexStart rs k st.back
      else if st.i = -1 then some false
      else
        (incr (st.vecK st.i.toNat)).bind fun v =>
          (scan test s (indexStart + st.start.toNat) st.left (rs.getD st.i.toNat .none) k v).bind
            fun
            | some v => concatLoop s indexStart rs k
                { i := st.i + 1, start := st.start + v, left := st.left - v,
                  vecK := Function.update (Function.update st.vecK st.i.toNat v)
                    (st.i + 1).toNat (-1) }
            | none => concatLoop s indexStart rs k st.back
    else some false

/-- The loop over the children of a union. -/
def anyChild (s : Str) (indexStart : Nat) : List Regex → Option Bool
  | [] => some false
  | r :: rs => (test s indexStart r).bind fun b =>
    if b then some true else anyChild s indexStart rs

/-- The loop over the children of an intersection, and of a concatenation at the end of the
string. -/
def allChildren (s : Str) (indexStart : Nat) : List Regex → Option Bool
  | [] => some true
  | r :: rs => (test s indexStart r).bind fun b =>
    if b then allChildren s indexStart rs else some false

/-- The loop of a star over the lengths of its first turn. -/
def starLoop (s : Str) (indexStart : Nat) (r : Regex) : Nat → Option Bool
  | 0 => some false
  | i + 1 =>
    (test ((s.drop indexStart).take (i + 1)) 0 r).bind fun b =>
      if b then
        if toUnsigned (indexStart + (i + 1)) = s.length then some true
        else (test s (toUnsigned (indexStart + (i + 1))) (.star r)).bind fun b =>
          if b then some true else starLoop s indexStart r i
      else starLoop s indexStart r i

end Search

def testConstStringInRegExpInternal : Nat → Str → Nat → Regex → Option Bool
  | 0, _, _, _ => none
  | k + 1, s, indexStart, r =>
    let test := testConstStringInRegExpInternal k
    match r with
    | .toRe w => some (decide (s.drop indexStart = w))
    | .concat r₁ r₂ rs =>
      if s.length ≠ indexStart then
        concatLoop test s indexStart (r₁ :: r₂ :: rs) k
          ⟨0, 0, toInt (s.length - indexStart), fun _ => -1⟩
      else allChildren test s indexStart (r₁ :: r₂ :: rs)
    | .union rs => anyChild test s indexStart rs
    | .inter rs => allChildren test s indexStart rs
    | .star r =>
      if s.length ≠ indexStart then
        starLoop test s indexStart r (toUnsigned (s.length - indexStart))
      else some true
    | .none => some false
    | .allchar => some (decide (s.length = indexStart + 1))
    | .range a b => some (decide (s.length = indexStart + 1) &&
        (match s.getLast? with
          | some c => decide (a ≤ c ∧ c ≤ b)
          | none => false))
    | .comp r => (test s indexStart r).map fun b => !b

/-- The compound kinds for which the automaton is tried. -/
def Regex.isCompound : Regex → Bool
  | .concat _ _ _ | .star _ | .union _ => true
  | _ => false

def testConstStringInRegExp (fuel : Nat) (s : Str) (r : Regex) : Option Bool :=
  if r.isCompound && canEvaluate r then some (evaluate s r)
  else testConstStringInRegExpInternal fuel s 0 r

end EthosCpc.Cvc5
