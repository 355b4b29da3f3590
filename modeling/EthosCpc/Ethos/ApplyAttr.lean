import EthosCpc.Eunoia.Term
import EthosCpc.Library.Inversion

/-!
# Applications of operators with a nil terminator

`State::mkApplyAttr` for the attributes `:right-assoc-nil`, `:left-assoc-nil` and
their variants for non-singleton lists, with a ground nil terminator.  The term
that it builds refers to the arguments; what it means is what evaluation with
values for them gives.
-/

namespace EthosCpc.ApplyAttr

/-- `AppInfo` of an operator.  The terminator was parsed before the operator was bound, so it is no
application of it. -/
structure AppInfo where
  op : Term
  nil : Term
  isLeft : Bool
  isNsNil : Bool
  nil_ne : ∀ a b, nil ≠ .app (.app op a) b

def elimSingleton (a : Term) : List Term → Term
  | [x] => x
  | _ => a

namespace AppInfo

variable (ai : AppInfo)

/-- An application to an element and a list. -/
def cons (x l : Term) : Term :=
  if ai.isLeft then .app (.app ai.op l) x else .app (.app ai.op x) l

/-- The loop of `getNAryChildren`: the elements, the outermost first, and the end. -/
def naryView : Term → List Term × Term
  | .app (.app cop a) b =>
    if cop = ai.op then
      if ai.isLeft then (b :: (naryView a).1, (naryView a).2)
      else (a :: (naryView b).1, (naryView b).2)
    else ([], .app (.app cop a) b)
  | e => ([], e)

def getNAryChildren (e : Term) : Option (List Term) :=
  if (ai.naryView e).2 = ai.nil then some (ai.naryView e).1 else none

def prependNAryChildren (ret : Term) (hargs : List Term) : Term := hargs.foldr ai.cons ret

/-- `EVAL_LIST_CONCAT` after the choice of the head and the tail. -/
def concatTo (head ret : Term) : Option Term :=
  if (ai.naryView ret).2 ≠ ai.nil then none
  else (ai.getNAryChildren head).map fun hargs =>
    if ret = ai.nil then head else ai.prependNAryChildren ret hargs

def listConcat (a b : Term) : Option Term := if ai.isLeft then ai.concatTo b a else ai.concatTo a b

def listSingletonElim (a : Term) : Option Term := (ai.getNAryChildren a).map (elimSingleton a)

def elements (e : Term) : Option (List Term) :=
  (ai.getNAryChildren e).map fun xs => if ai.isLeft then xs.reverse else xs

end AppInfo

/-! ## The terms built -/

/-- A term over arguments.  The operator stands before the two terms of an application and of a
concatenation and the one of an elimination. -/
inductive Built (ι : Type)
  | arg (i : ι)
  | nil
  | apply (a b : Built ι)
  | listConcat (a b : Built ι)
  | listSingletonElim (a : Built ι)

variable {ι : Type}

namespace Built

/-- Evaluation with values of the arguments. -/
def eval (ai : AppInfo) (σ : ι → Term) : Built ι → Option Term
  | arg i => some (σ i)
  | nil => some ai.nil
  | apply a b => (a.eval ai σ).bind fun x => (b.eval ai σ).map fun y => .app (.app ai.op x) y
  | listConcat a b => (a.eval ai σ).bind fun x => (b.eval ai σ).bind fun y => ai.listConcat x y
  | listSingletonElim a => (a.eval ai σ).bind ai.listSingletonElim

/-- `getNAryChildren` before the arguments are known. -/
def getNAryChildren (isLeft : Bool) : Built ι → Option (List (Built ι))
  | nil => some []
  | apply a b =>
    if isLeft then (a.getNAryChildren isLeft).map (b :: ·)
    else (b.getNAryChildren isLeft).map (a :: ·)
  | _ => none

/-- `mkExpr` of a singleton elimination, which may evaluate at once. -/
def mkSingletonElim (isLeft : Bool) (a : Built ι) : Built ι :=
  match a.getNAryChildren isLeft with
  | some [x] => x
  | some _ => a
  | none => listSingletonElim a

end Built

/-- A round of the loop of `State::mkApplyAttr`, with `nlistTerms`. -/
def addChild (isLeft : Bool) (isList : ι → Bool) (s : Built ι × Nat) (c : ι) : Built ι × Nat :=
  let cc := if isLeft then (s.1, .arg c) else (.arg c, s.1)
  if isList c then (.listConcat cc.1 cc.2, s.2) else (.apply cc.1 cc.2, s.2 + 1)

/-- `State::mkApplyAttr`.  The children are taken from the end of the list. -/
def mkApplyAttr (ai : AppInfo) (isList : ι → Bool) (children : List ι) : Built ι :=
  match if ai.isLeft then children else children.reverse with
  | [] => .nil
  | c :: cs =>
    let s := if isList c then cs.foldl (addChild ai.isLeft isList) (.arg c, 0)
      else (c :: cs).foldl (addChild ai.isLeft isList) (.nil, 0)
    if ai.isNsNil && s.2 < 2 then s.1.mkSingletonElim ai.isLeft else s.1

/-! ## Lists of an operator -/

variable {ai : AppInfo} {e : Term} {xs ys : List Term}

/-- The list of some elements, the outermost first. -/
def ofElems (ai : AppInfo) (xs : List Term) : Term := ai.prependNAryChildren ai.nil xs

lemma naryView_cons (x l : Term) :
    ai.naryView (ai.cons x l) = (x :: (ai.naryView l).1, (ai.naryView l).2) := by
  unfold AppInfo.cons
  split
  · rw [AppInfo.naryView, if_pos rfl, if_pos ‹_›]
  · rw [AppInfo.naryView, if_pos rfl, if_neg ‹_›]

lemma prepend_naryView (e : Term) :
    ai.prependNAryChildren (ai.naryView e).2 (ai.naryView e).1 = e := by
  induction e using AppInfo.naryView.induct ai with
  | case1 a b hleft ih =>
    rw [AppInfo.naryView, if_pos rfl, if_pos hleft]
    exact (if_pos hleft).trans (congrArg (fun l => Term.app (.app ai.op l) b) ih)
  | case2 a b hleft ih =>
    rw [AppInfo.naryView, if_pos rfl, if_neg hleft]
    exact (if_neg hleft).trans (congrArg (Term.app (.app ai.op a)) ih)
  | case3 cop a b hcop =>
    rw [AppInfo.naryView, if_neg hcop]
    rfl
  | case4 e he =>
    rw [AppInfo.naryView]
    · rfl
    · exact he

lemma eq_of_getNAryChildren (h : ai.getNAryChildren e = some xs) : e = ofElems ai xs := by
  unfold AppInfo.getNAryChildren at h
  split at h
  · rename_i hend
    cases h
    rw [ofElems, ← hend, prepend_naryView]
  · cases h

lemma naryView_ofElems (xs : List Term) : ai.naryView (ofElems ai xs) = (xs, ai.nil) := by
  induction xs with
  | nil =>
    change ai.naryView ai.nil = ([], ai.nil)
    have hnil := ai.nil_ne
    generalize ai.nil = nil at hnil
    unfold AppInfo.naryView
    split
    · refine if_neg ?_
      rintro rfl
      exact hnil _ _ rfl
    · rfl
  | cons x xs ih =>
    change ai.naryView (ai.cons x (ofElems ai xs)) = _
    rw [naryView_cons, ih]

lemma getNAryChildren_ofElems (xs : List Term) : ai.getNAryChildren (ofElems ai xs) = some xs := by
  rw [AppInfo.getNAryChildren, naryView_ofElems, if_pos rfl]

lemma eq_nil_of_ofElems (h : ofElems ai xs = ai.nil) : xs = [] := by
  have hxs : ai.getNAryChildren (ofElems ai xs) = some xs := getNAryChildren_ofElems xs
  rw [h] at hxs
  exact (Option.some.inj ((getNAryChildren_ofElems []).symm.trans hxs)).symm

lemma concatTo_ofElems (xs : List Term) (h : ai.getNAryChildren e = some ys) :
    ai.concatTo e (ofElems ai xs) = some (ofElems ai (ys ++ xs)) := by
  rw [AppInfo.concatTo, naryView_ofElems, if_neg (not_not_intro rfl), h, Option.map_some]
  by_cases heq : ofElems ai xs = ai.nil
  · rw [if_pos heq, eq_nil_of_ofElems heq, List.append_nil, ← eq_of_getNAryChildren h]
  · rw [if_neg heq]
    exact congrArg some List.foldr_append.symm

/-! ## Evaluation -/

variable {isList : ι → Bool} {σ : ι → Term} {vals : ι → List Term} {s : Built ι × Nat} {c : ι}
  {cs : List ι} {a : Built ι}

/-- The term built so far is a list, of which `nlistTerms` elements are ordinary arguments. -/
structure BuiltList (ai : AppInfo) (σ : ι → Term) (s : Built ι × Nat) (xs : List Term) : Prop where
  eval : s.1.eval ai σ = some (ofElems ai xs)
  count : s.2 ≤ xs.length

lemma BuiltList.addChild (h : BuiltList ai σ s xs)
    (hlist : isList c = true → ai.getNAryChildren (σ c) = some (vals c))
    (hterm : isList c = false → vals c = [σ c]) :
    BuiltList ai σ (addChild ai.isLeft isList s c) (vals c ++ xs) := by
  have heval := h.eval
  have hcount := h.count
  unfold ApplyAttr.addChild
  cases hc : isList c with
  | true =>
    refine ⟨?_, ?_⟩
    · rw [← concatTo_ofElems xs (hlist hc)]
      cases hleft : ai.isLeft <;> simp [Built.eval, heval, AppInfo.listConcat, hleft]
    · rw [List.length_append]
      exact hcount.trans (Nat.le_add_left ..)
  | false =>
    rw [hterm hc]
    refine ⟨?_, Nat.succ_le_succ hcount⟩
    change _ = some (ai.cons (σ c) (ofElems ai xs))
    unfold AppInfo.cons
    cases ai.isLeft <;> simp [Built.eval, heval]

lemma exists_buildList
    (hlist : ∀ i ∈ c :: cs, isList i = true → ai.getNAryChildren (σ i) = some (vals i))
    (hterm : ∀ i, isList i = false → vals i = [σ i]) :
    BuiltList ai σ (if isList c then cs.foldl (addChild ai.isLeft isList) (.arg c, 0)
        else (c :: cs).foldl (addChild ai.isLeft isList) (.nil, 0))
      ((c :: cs).reverse.flatMap vals) := by
  have hloop : ∀ {cs : List ι} {s xs}, BuiltList ai σ s xs →
      (∀ i ∈ cs, isList i = true → ai.getNAryChildren (σ i) = some (vals i)) →
      BuiltList ai σ (cs.foldl (addChild ai.isLeft isList) s) (cs.reverse.flatMap vals ++ xs) := by
    intro cs
    induction cs with
    | nil => exact fun h _ => h
    | cons c cs ih =>
      intro s xs h hlist
      obtain ⟨hc, hcs⟩ := List.forall_mem_cons.1 hlist
      simpa using ih (h.addChild hc (hterm c)) hcs
  cases hc : isList c with
  | true =>
    obtain ⟨hc', hcs⟩ := List.forall_mem_cons.1 hlist
    have hstart : BuiltList ai σ (.arg c, 0) (vals c) :=
      ⟨congrArg some (eq_of_getNAryChildren (hc' hc)), Nat.zero_le _⟩
    simpa using hloop hstart hcs
  | false =>
    have hstart : BuiltList ai σ (.nil, 0) [] := ⟨rfl, Nat.le_refl _⟩
    simpa using hloop hstart hlist

/-- The elements that are known before evaluation are those of the list. -/
lemma forall₂_getNAryChildren {bs : List (Built ι)} (ha : a.eval ai σ = some (ofElems ai xs))
    (hbs : a.getNAryChildren ai.isLeft = some bs) :
    List.Forall₂ (fun b x => b.eval ai σ = some x) bs xs := by
  induction a generalizing xs bs with
  | nil =>
    cases hbs
    rw [eq_nil_of_ofElems (Option.some.inj ha).symm]
    exact .nil
  | apply a b iha ihb =>
    obtain ⟨x, hx, ha⟩ := bind_inv ha
    obtain ⟨y, hy, ha⟩ := map_inv ha
    cases xs with
    | nil => exact absurd ha.symm (ai.nil_ne x y)
    | cons v vs =>
      change _ = ai.cons v (ofElems ai vs) at ha
      unfold AppInfo.cons at ha
      unfold Built.getNAryChildren at hbs
      split at hbs
      · rename_i hleft
        rw [if_pos hleft] at ha
        obtain ⟨bs', hbs', rfl⟩ := map_inv hbs
        cases ha
        exact .cons hy (iha hx hbs')
      rename_i hleft
      rw [if_neg hleft] at ha
      obtain ⟨bs', hbs', rfl⟩ := map_inv hbs
      cases ha
      exact .cons hx (ihb hy hbs')
  | arg => cases hbs
  | listConcat => cases hbs
  | listSingletonElim => cases hbs

lemma eval_mkSingletonElim (ha : a.eval ai σ = some (ofElems ai xs)) :
    (a.mkSingletonElim ai.isLeft).eval ai σ = some (elimSingleton (ofElems ai xs) xs) := by
  unfold Built.mkSingletonElim
  cases hbs : a.getNAryChildren ai.isLeft with
  | none =>
    change (a.eval ai σ).bind _ = _
    rw [ha, Option.bind_some, AppInfo.listSingletonElim, getNAryChildren_ofElems, Option.map_some]
  | some bs =>
    match bs, xs, forall₂_getNAryChildren ha hbs with
    | [], [], _ => exact ha
    | [_], [_], .cons hx .nil => exact hx
    | _ :: _ :: _, _ :: _ :: _, _ => exact ha

/-- The term for an application evaluates to the list of the elements of its arguments, and for an
operator without singletons to the element if there is only one. -/
theorem mkApplyAttr_eval {args : List ι} {elems : ι → List Term} (hargs : args ≠ [])
    (hlist : ∀ i ∈ args, isList i = true → ai.elements (σ i) = some (elems i)) :
    let xs := args.flatMap fun i => if isList i then elems i else [σ i]
    ∃ r, (mkApplyAttr ai isList args).eval ai σ = some r ∧
      if ai.isNsNil ∧ xs.length = 1 then xs = [r] else ai.elements r = some xs := by
  -- the elements of the arguments with the outermost first
  obtain ⟨vals, hvals⟩ : ∃ vals : ι → List Term, ∀ i, vals i =
    if isList i then if ai.isLeft then (elems i).reverse else elems i else [σ i] :=
      ⟨_, fun _ => rfl⟩
  have hterm : ∀ i, isList i = false → vals i = [σ i] := fun i hi => by rw [hvals, hi]; rfl
  have hchildren : ∀ i ∈ args, isList i = true → ai.getNAryChildren (σ i) = some (vals i) := by
    intro i hi hlisti
    obtain ⟨ys, hys, heq⟩ := map_inv (hlist i hi hlisti)
    rw [hys, hvals, hlisti, if_pos rfl, ← heq]
    cases ai.isLeft <;> simp
  obtain ⟨c, cs, hcs⟩ : ∃ c cs, (if ai.isLeft then args else args.reverse) = c :: cs :=
    List.exists_cons_of_ne_nil (by cases ai.isLeft <;> simpa using hargs)
  have hmem : ∀ i ∈ c :: cs, i ∈ args := by
    intro i hi
    rw [← hcs] at hi
    split at hi
    · exact hi
    · exact List.mem_reverse.1 hi
  have hxs : args.flatMap (fun i => if isList i then elems i else [σ i]) =
      if ai.isLeft then ((c :: cs).reverse.flatMap vals).reverse
      else (c :: cs).reverse.flatMap vals := by
    rw [← hcs, funext hvals]
    cases ai.isLeft
    · simp
    · simp only [if_true, List.reverse_flatMap, List.reverse_reverse]
      refine List.flatMap_congr fun i _ => ?_
      cases hi : isList i <;> simp [hi]
  have hbuild := exists_buildList (fun i hi => hchildren i (hmem i hi)) hterm
  dsimp only
  unfold mkApplyAttr
  rw [hxs, hcs]
  dsimp only
  generalize (c :: cs).reverse.flatMap vals = ys at hbuild ⊢
  generalize (if isList c then _ else _) = s at hbuild ⊢
  have hlen : (if ai.isLeft then ys.reverse else ys).length = ys.length := by
    cases ai.isLeft <;> simp
  have helems : ai.elements (ofElems ai ys) = some (if ai.isLeft then ys.reverse else ys) := by
    rw [AppInfo.elements, getNAryChildren_ofElems, Option.map_some]
  rw [hlen]
  by_cases hns : ai.isNsNil && s.2 < 2
  · rw [if_pos hns]
    refine ⟨_, eval_mkSingletonElim hbuild.eval, ?_⟩
    match ys with
    | [] => rwa [if_neg (by simp)]
    | [x] =>
      rw [if_pos ⟨((Bool.and_eq_true ..).mp hns).1, rfl⟩]
      cases ai.isLeft <;> rfl
    | _ :: _ :: _ => rwa [if_neg (by simp)]
  rw [if_neg hns]
  refine ⟨_, hbuild.eval, ?_⟩
  rwa [if_neg]
  rintro ⟨hnil, hone⟩
  have := hbuild.count
  simp [hnil] at hns
  omega

/-- `or`. -/
def orInfo : AppInfo where
  op := .sym .or
  nil := .bool false
  isLeft := false
  isNsNil := false
  nil_ne _ _ := nofun

/-- `(or (not true) xs)`, where `xs` becomes `(or true false)`. -/
theorem mkApplyAttr_eval_or :
    let σ : Bool → Term := (bif · then .bop .or (.bool true) (.bool false)
      else .uop .not (.bool true))
    let xs := [false, true].flatMap fun i => if i then [.bool true] else [σ i]
    ∃ r, (mkApplyAttr orInfo id [false, true]).eval orInfo σ = some r ∧
      if orInfo.isNsNil ∧ xs.length = 1 then xs = [r] else orInfo.elements r = some xs :=
  mkApplyAttr_eval (by decide) (by decide)

end EthosCpc.ApplyAttr
