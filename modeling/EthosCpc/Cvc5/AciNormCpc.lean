import EthosCpc.Cpc.AciNormLists
import EthosCpc.Cvc5.AciNormSpec

/-!
# Normalization steps of cvc5 in CPC

A node is printed as an application of the operator of the signature, with the
nil terminator for the type of its first argument.  What the checkers of
`expr/aci_norm.cpp` accept, the rules `aci_norm` and `absorb` accept on the
printed terms: the operands of a node are printed as the operands of its term.
-/

namespace EthosCpc.Cvc5

open Term (bop uop)
open Library
open Option (bind_some some.inj)

/-! ## Printing -/

/-- The operator of the signature.  Separation logic and finite fields have rules of their own. -/
def AciKind.sym : AciKind → Option Sym
  | .or => some .or
  | .and => some .and
  | .regexpUnion => some .reUnion
  | .regexpInter => some .reInter
  | .bitvectorAnd => some .bvand
  | .bitvectorOr => some .bvor
  | .bitvectorXor => some .bvxor
  | .bitvectorConcat => some .concat
  | .stringConcat => some .strConcat
  | .regexpConcat => some .reConcat
  | .sepStar | .finiteFieldAdd | .finiteFieldMult => none

variable (Γ : Nat → Ty)

/-- The terms of nodes of other kinds.  They are no applications of an operator of the rule, but
constant sequences are printed as concatenations. -/
def isOtherTerm : Term → Bool
  | .app (.app (.sym s) _) _ => !s.aciAssociative || s = .strConcat
  | _ => true

/-- The term of a leaf.  A node of another kind is printed as any such term of its type. -/
def AciLeaf.print : AciLeaf Term → Option Term
  | .constBoolean b => some (.bool b)
  | .constBitvector w v => some (.bin w v)
  | .constFiniteField _ _ => none
  | .emptyWord T => EthosCpc.seqEmpty T
  | .emptyRegexp => some (uop .strToRe (.str []))
  | .regexpNone => some (.sym .reNone)
  | .regexpAll => some (.sym .reAll)
  | .bvEmpty => some (.bin 0 0#0)
  | .other (.base T) t => if typeof Γ t = some T ∧ isOtherTerm t = true then some t else none
  | .other (.finiteField _) _ => none

namespace AciNode

mutual

def print : AciNode Term → Option Term
  | .leaf l => l.print Γ
  | .app k cs =>
    k.sym.bind fun s => (prints cs).bind fun
      | [] => none
      | x :: xs => mkNary Γ s x xs

def prints : List (AciNode Term) → Option (List Term)
  | [] => some []
  | c :: cs => (print c).bind fun t => (prints cs).map (t :: ·)

end

end AciNode

variable {Γ : Nat → Ty} {k : AciKind} {s : Sym} {S : Ty} {nil t x : Term}
  {cs : List (AciNode Term)} {ts : List Term} {T : AciType}

open AciNode

/-! ## Typed terms -/

lemma prints_forall (h : prints Γ cs = some ts) :
    List.Forall₂ (fun c t => c.print Γ = some t) cs ts := by
  induction cs generalizing ts with
  | nil =>
    cases h
    exact .nil
  | cons c cs ih =>
    rw [prints] at h
    obtain ⟨t, ht, h⟩ := bind_inv h
    obtain ⟨ts', hts, rfl⟩ := map_inv h
    exact .cons ht (ih hts)

lemma print_of_mem (h : prints Γ cs = some ts) {t : Term} (ht : t ∈ ts) :
    ∃ c ∈ cs, c.print Γ = some t := by
  have hall := prints_forall h
  clear h
  induction hall with
  | nil => cases ht
  | cons hc _ ih =>
    rcases List.mem_cons.1 ht with rfl | ht
    · exact ⟨_, .head _, hc⟩
    · obtain ⟨c, hmem, hprint⟩ := ih ht
      exact ⟨c, .tail _ hmem, hprint⟩

lemma mem_print (h : prints Γ cs = some ts) {c : AciNode Term} (hc : c ∈ cs) :
    ∃ t ∈ ts, c.print Γ = some t := by
  have hall := prints_forall h
  clear h
  induction hall with
  | nil => cases hc
  | cons hc' _ ih =>
    rcases List.mem_cons.1 hc with rfl | hc
    · exact ⟨_, .head _, hc'⟩
    · obtain ⟨t, hmem, hprint⟩ := ih hc
      exact ⟨t, .tail _ hmem, hprint⟩

lemma print_app_inv (h : (app k cs).print Γ = some t) :
    ∃ s x xs nil, k.sym = some s ∧ prints Γ cs = some (x :: xs) ∧ nilFor Γ s x = some nil ∧
      t = prependNAryChildren (.sym s) nil (x :: xs) := by
  rw [AciNode.print] at h
  obtain ⟨s, hs, h⟩ := bind_inv h
  obtain ⟨ts, hts, h⟩ := bind_inv h
  cases ts with
  | nil => cases h
  | cons x xs =>
    obtain ⟨nil, hnil, rfl⟩ := map_inv h
    exact ⟨s, x, xs, nil, hs, hts, hnil, rfl⟩

/-- What printing knows about an operator with arguments of one type. -/
structure KindFacts (Γ : Nat → Ty) (k : AciKind) (s : Sym) (S : Ty) (nil : Term) : Prop where
  closed : EthosCpc.Closed Γ s S
  view : naryView (.sym s) nil = ([], nil)
  typed : typeof Γ nil = some S
  nil_eq : eoNil s S = some nil
  par : s.nilIsParameterized = false → eoNil s .bool = some nil
  nullTerminator : ∃ nt : AciLeaf Term,
    getNullTerminator k (.base S) = some nt ∧ nt.print Γ = some nil

lemma typeof_seqEmpty (h : EthosCpc.seqEmpty (.seq S) = some nil) :
    typeof Γ nil = some (.seq S) ∧ naryView (.sym .strConcat) nil = ([], nil) := by
  unfold EthosCpc.seqEmpty at h
  split at h
  · rename_i heq
    cases heq
    cases h
    exact ⟨rfl, rfl⟩
  · rename_i heq
    cases heq
    cases h
    exact ⟨rfl, rfl⟩
  · cases h

lemma kindFacts (hs : k.sym = some s) (hk : k ≠ .bitvectorConcat)
    (hadmits : AciType.admits k (.base S) = true) (hx : typeof Γ x = some S)
    (hnil : nilFor Γ s x = some nil) : KindFacts Γ k s S nil := by
  have hpar : s.nilIsParameterized = true → eoNil s S = some nil := by
    intro hp
    rw [nilFor, if_pos hp, hx, bind_some] at hnil
    exact hnil
  cases k <;> cases S <;> try contradiction
  case or.bool =>
    cases hs
    cases hnil
    exact ⟨closed_fn2 rfl rfl, rfl, rfl, rfl, fun _ => rfl, _, rfl, rfl⟩
  case and.bool =>
    cases hs
    cases hnil
    exact ⟨closed_fn2 rfl rfl, rfl, rfl, rfl, fun _ => rfl, _, rfl, rfl⟩
  case regexpUnion.reglan =>
    cases hs
    cases hnil
    exact ⟨closed_fn2 rfl rfl, rfl, rfl, rfl, fun _ => rfl, _, rfl, rfl⟩
  case regexpInter.reglan =>
    cases hs
    cases hnil
    exact ⟨closed_fn2 rfl rfl, rfl, rfl, rfl, fun _ => rfl, _, rfl, rfl⟩
  case regexpConcat.reglan =>
    cases hs
    cases hnil
    exact ⟨closed_fn2 rfl rfl, rfl, rfl, rfl, fun _ => rfl, _, rfl, rfl⟩
  case bitvectorAnd.bitvec w =>
    cases hs
    have heo := hpar rfl
    obtain rfl := eoNil_bvand_inv heo
    exact ⟨closed_bv2 rfl rfl, rfl, rfl, heo, (fun h => by cases h), _, rfl, by
      rw [AciLeaf.print, BitVec.not_zero]⟩
  case bitvectorOr.bitvec w =>
    cases hs
    have heo := hpar rfl
    obtain rfl := width_toBin_inv heo
    exact ⟨closed_bv2 rfl rfl, rfl, rfl, heo, (fun h => by cases h), _, rfl, rfl⟩
  case bitvectorXor.bitvec w =>
    cases hs
    have heo := hpar rfl
    obtain rfl := width_toBin_inv heo
    exact ⟨closed_bv2 rfl rfl, rfl, rfl, heo, (fun h => by cases h), _, rfl, rfl⟩
  case stringConcat.seq S =>
    cases hs
    have heo := hpar rfl
    have htype := typeof_seqEmpty (Γ := Γ) heo
    exact ⟨closed_strConcat, htype.2, htype.1, heo, (fun h => by cases h), _, rfl, heo⟩

abbrev noBits : Term := .bin 0 0#0

lemma normList_concat : NormList Γ .concat noBits fun _ => True where
  view := rfl
  nilFor := by
    intro l _
    rw [nilFor]
    rfl
  args := fun _ _ _ => ⟨trivial, trivial⟩

/-- A list of the operator of a node, with its nil terminator. -/
structure AppPrint (Γ : Nat → Ty) (k : AciKind) (cs : List (AciNode Term)) (T : AciType)
    (t : Term) where
  s : Sym
  nil : Term
  nt : AciLeaf Term
  x : Term
  xs : List Term
  S : Ty
  E : Term → Prop
  sym : k.sym = some s
  prints : prints Γ cs = some (x :: xs)
  term : t = prependNAryChildren (.sym s) nil (x :: xs)
  base : T = .base S
  typed : typeof Γ t = some S
  nil_eq : eoNil s S = some nil
  nullTerminator : getNullTerminator k T = some nt
  nt_print : nt.print Γ = some nil
  list : NormList Γ s nil E
  of_typed : ∀ t, typeof Γ t = some S → E t

variable {w : Nat}

lemma typeof_concat {cs : List (AciNode Term)} {ts : List Term} {Ts : List AciType}
    (hc : ∀ c ∈ cs, ∀ {T : AciType} {t : Term}, c.typeOf = some T → c.print Γ = some t →
      ∃ S, T = .base S ∧ typeof Γ t = some S)
    (hts : prints Γ cs = some ts) (hTs : typesOf cs = some Ts) (hw : AciType.widths Ts = some w) :
    typeof Γ (prependNAryChildren (.sym .concat) noBits ts) = some (.bitvec w) := by
  induction cs generalizing ts Ts w with
  | nil =>
    cases hts
    cases hTs
    cases hw
    rfl
  | cons c cs ih =>
    obtain ⟨hhead, htail⟩ := List.forall_mem_cons.1 hc
    obtain ⟨T, Ts', hT, hTs', rfl⟩ := typesOf_cons_inv hTs
    rw [AciNode.prints] at hts
    obtain ⟨t, ht, hts⟩ := bind_inv hts
    obtain ⟨ts', hts', rfl⟩ := map_inv hts
    obtain ⟨S, rfl, htype⟩ := hhead hT ht
    obtain ⟨v, hv⟩ := (widths_bitvec hw).1 (.base S) (by simp)
    cases hv
    rw [AciType.widths] at hw
    obtain ⟨u, hu, rfl⟩ := map_inv hw
    rw [prependNAryChildren_cons, typeof_bop Γ rfl, htype, ih htail hts' hTs' hu]
    rfl

lemma exists_appPrint
    (hc : ∀ c ∈ cs, ∀ {T : AciType} {t : Term}, c.typeOf = some T → c.print Γ = some t →
      ∃ S, T = .base S ∧ typeof Γ t = some S)
    (hT : (app k cs).typeOf = some T) (ht : (app k cs).print Γ = some t) :
    Nonempty (AppPrint Γ k cs T t) := by
  obtain ⟨s, x, xs, nil, hs, hts, hnil, rfl⟩ := print_app_inv ht
  obtain ⟨Ts, hTs, hof⟩ := typeOf_app_inv hT
  by_cases hk : k = .bitvectorConcat
  · subst hk
    obtain ⟨-, w, hw, rfl⟩ := ofArgs_concat.1 hof
    cases hs
    rw [nilFor] at hnil
    cases hnil
    exact ⟨{
      s := .concat
      nil := noBits
      nt := .bvEmpty
      x := x
      xs := xs
      S := .bitvec w
      E := fun _ => True
      sym := rfl
      prints := hts
      term := rfl
      base := rfl
      typed := typeof_concat hc hts hTs hw
      nil_eq := rfl
      nullTerminator := rfl
      nt_print := rfl
      list := normList_concat
      of_typed := fun _ _ => trivial }⟩
  obtain ⟨hcommon, hadmits⟩ := (ofArgs_eq_some hk).1 hof
  obtain ⟨_, hall⟩ := common_eq_some.1 hcommon
  -- the arguments are printed as terms of one type
  have htyped : ∀ S, T = .base S → ∀ y ∈ x :: xs, typeof Γ y = some S := by
    rintro S rfl y hy
    obtain ⟨c, hc', hprint⟩ := print_of_mem hts hy
    obtain ⟨T', hmem, hT'⟩ := typeOf_of_mem hTs c hc'
    obtain ⟨S', rfl, htype⟩ := hc c hc' hT' hprint
    cases hall _ hmem
    exact htype
  have hbase : ∃ S, T = .base S := by
    obtain ⟨c, hc', hprint⟩ := print_of_mem hts (List.mem_cons_self (a := x))
    obtain ⟨T', hmem, hT'⟩ := typeOf_of_mem hTs c hc'
    obtain ⟨S', rfl, -⟩ := hc c hc' hT' hprint
    exact ⟨S', (hall _ hmem).symm⟩
  obtain ⟨S, rfl⟩ := hbase
  have hels := htyped S rfl
  have hfacts := kindFacts hs hk hadmits (hels x (by simp)) hnil
  obtain ⟨nt, hnt, hprint⟩ := hfacts.nullTerminator
  have htype := hfacts.closed.typeof_prepend hfacts.typed hels
  exact ⟨{
    s := s
    nil := nil
    nt := nt
    x := x
    xs := xs
    S := S
    E := fun t => typeof Γ t = some S
    sym := hs
    prints := hts
    term := rfl
    base := rfl
    typed := htype
    nil_eq := hfacts.nil_eq
    nullTerminator := hnt
    nt_print := hprint
    list := hfacts.closed.normList hfacts.view hfacts.typed hfacts.nil_eq hfacts.par
    of_typed := fun _ h => h }⟩

lemma print_typed (n : AciNode Term) : ∀ {T : AciType} {t : Term}, n.typeOf = some T →
    n.print Γ = some t → ∃ S, T = .base S ∧ typeof Γ t = some S := by
  induction n with
  | leaf l =>
    intro T t hT ht
    match l with
    | .constBoolean b =>
      cases hT
      cases ht
      exact ⟨_, rfl, rfl⟩
    | .constBitvector w v =>
      cases hT
      cases ht
      exact ⟨_, rfl, rfl⟩
    | .constFiniteField n v => cases ht
    | .emptyWord (.seq S) =>
      cases hT
      exact ⟨_, rfl, (typeof_seqEmpty ht).1⟩
    | .emptyRegexp =>
      cases hT
      cases ht
      exact ⟨_, rfl, rfl⟩
    | .regexpNone =>
      cases hT
      cases ht
      exact ⟨_, rfl, rfl⟩
    | .regexpAll =>
      cases hT
      cases ht
      exact ⟨_, rfl, rfl⟩
    | .bvEmpty =>
      cases hT
      cases ht
      exact ⟨_, rfl, rfl⟩
    | .other (.base S) u =>
      cases hT
      rw [AciNode.print, AciLeaf.print] at ht
      split at ht
      · rename_i hu
        cases ht
        exact ⟨_, rfl, hu.1⟩
      · cases ht
    | .other (.finiteField n) u => cases ht
  | app k cs ih =>
    intro T t hT ht
    obtain ⟨p⟩ := exists_appPrint ih hT ht
    exact ⟨p.S, p.base, p.typed⟩

/-! ## Operands of printed nodes -/

def flatPrint (Γ : Nat → Ty) (s : Sym) (nil : Term) (n : AciNode Term) : List Term :=
  ((n.print Γ).map (flatWith id s nil)).getD []

lemma flatPrint_of_print {n : AciNode Term} (h : n.print Γ = some t) :
    flatPrint Γ s nil n = flatWith id s nil t := by
  rw [flatPrint, h]
  rfl

lemma flatMap_prints (h : prints Γ cs = some ts) :
    cs.flatMap (flatPrint Γ s nil) = ts.flatMap (flatWith id s nil) := by
  have hall := prints_forall h
  clear h
  induction hall with
  | nil => rfl
  | cons hc _ ih => rw [List.flatMap_cons, List.flatMap_cons, flatPrint_of_print hc, ih]

lemma child_nullTerminator {nt : AciLeaf Term} (hT : (app k cs).typeOf = some T)
    (hnt : getNullTerminator k T = some nt) :
    ∀ c ∈ cs, ∃ T', c.typeOf = some T' ∧ getNullTerminator k T' = some nt := by
  obtain ⟨Ts, hTs, hof⟩ := typeOf_app_inv hT
  intro c hc
  obtain ⟨T', hmem, hT'⟩ := typeOf_of_mem hTs c hc
  by_cases hk : k = .bitvectorConcat
  · subst hk
    exact ⟨T', hT', hnt⟩
  have hall := (common_eq_some.1 ((ofArgs_eq_some hk).1 hof).1).2
  rw [← hall T' hmem] at hnt
  exact ⟨T', hT', hnt⟩

variable {E : Term → Prop} {nt : AciLeaf Term}

lemma flatPrint_eq (hlist : NormList Γ s nil E) (hs : k.sym = some s)
    (hnt : nt.print Γ = some nil) (n : AciNode Term) : ∀ {T : AciType} {t : Term},
      n.typeOf = some T → getNullTerminator k T = some nt → n.print Γ = some t →
        flatPrint Γ s nil n = (operands k nt n).flatMap (flatPrint Γ s nil) := by
  induction n with
  | leaf l =>
    intro T t _ _ _
    rw [operands_leaf]
    split
    · rename_i hl
      have hprint : (leaf nt).print Γ = some nil := hnt
      rw [hl, flatPrint_of_print hprint, flatWith_nil hlist]
      rfl
    · rw [List.flatMap_singleton]
  | app k' cs ih =>
    intro T t hT hT' ht
    by_cases hk : k' = k
    swap
    · rw [operands_other hk, List.flatMap_singleton]
    subst hk
    obtain ⟨p⟩ := exists_appPrint (fun c _ => print_typed c) hT ht
    have hnil : p.nil = nil := by
      have hprint := p.nt_print
      rw [some.inj (p.nullTerminator.symm.trans hT'), hnt] at hprint
      exact (some.inj hprint).symm
    have hsym : p.s = s := some.inj (p.sym.symm.trans hs)
    have hflat : flatPrint Γ s nil (app k' cs) = cs.flatMap (flatPrint Γ s nil) := by
      rw [flatPrint_of_print ht, p.term, hsym, hnil, flatWith_prepend hlist,
        ← flatMap_prints p.prints]
    have hprinted : ∀ c ∈ cs, ∃ t, c.print Γ = some t := fun c hc =>
      (mem_print p.prints hc).imp fun _ h => h.2
    have hchild := child_nullTerminator hT hT'
    rw [hflat, operands_app]
    clear p hflat hT ht hnil hsym
    -- one argument after the other
    induction cs with
    | nil => rfl
    | cons c cs ihs =>
      obtain ⟨hc, hcs⟩ := List.forall_mem_cons.1 ih
      obtain ⟨⟨S, hS, hSnt⟩, hchild⟩ := List.forall_mem_cons.1 hchild
      obtain ⟨⟨u, hu⟩, hprinted⟩ := List.forall_mem_cons.1 hprinted
      rw [operandsList_cons, List.flatMap_append, List.flatMap_cons, ← ihs hcs hprinted hchild,
        ← hc hS hSnt hu]

/-! ## Operands of normal forms -/

lemma kind_of_mem_rawOperands (k : AciKind) (n : AciNode Term) :
    ∀ c ∈ rawOperands k n, c.kind? ≠ some k := by
  induction n with
  | leaf l =>
    rw [rawOperands]
    exact List.forall_mem_singleton.2 (by simp [kind?])
  | app k' cs ih =>
    rw [rawOperands]
    split
    swap
    · rename_i hk
      exact List.forall_mem_singleton.2 (by simpa [kind?] using hk)
    induction cs with
    | nil => simp [rawOperandsList]
    | cons c cs ihs =>
      obtain ⟨hc, hcs⟩ := List.forall_mem_cons.1 ih
      rw [rawOperandsList]
      exact List.forall_mem_append.2 ⟨hc, ihs hcs⟩

/-- A node that is an operand of an application of `k`. -/
def IsOperand (k : AciKind) (nt : AciLeaf Term) (c : AciNode Term) : Prop :=
  c ≠ leaf nt ∧ c.kind? ≠ some k

lemma isOperand_of_mem_normalChildren (le : AciNode Term → AciNode Term → Bool) :
    ∀ c ∈ normalChildren le k nt cs, IsOperand k nt c := by
  intro c hc
  obtain ⟨hmem, hne⟩ := List.mem_filter.1 ((mem_normalChildren le).1 hc)
  refine ⟨of_decide_eq_true hne, ?_⟩
  have hraw := kind_of_mem_rawOperands k (app k cs)
  rw [rawOperands, if_pos rfl] at hraw
  exact hraw c hmem

lemma ofChildren_inj {l l' : List (AciNode Term)} (hl : ∀ c ∈ l, IsOperand k nt c)
    (hl' : ∀ c ∈ l', IsOperand k nt c) (h : ofChildren k nt l = ofChildren k nt l') : l = l' := by
  match l, l' with
  | [], [] => rfl
  | [], [c] => exact absurd h.symm (hl' c (by simp)).1
  | [c], [] => exact absurd h (hl c (by simp)).1
  | [], _ :: _ :: _ => cases h
  | _ :: _ :: _, [] => cases h
  | [c], [c'] => exact congrArg (fun c => [c]) h
  | [c], _ :: _ :: _ => exact absurd (congrArg kind? h) (hl c (by simp)).2
  | _ :: _ :: _, [c'] => exact absurd (congrArg kind? h).symm (hl' c' (by simp)).2
  | _ :: _ :: _, _ :: _ :: _ => exact (app.inj h).2

/-- A normal form that is no application of the operator. -/
lemma flatMap_of_ofChildren (hlist : NormList Γ s nil E) (hnt : nt.print Γ = some nil)
    {l : List (AciNode Term)} (hkind : (ofChildren k nt l).kind? ≠ some k) :
    l.flatMap (flatPrint Γ s nil) = flatPrint Γ s nil (ofChildren k nt l) := by
  match l, hkind with
  | [], _ =>
    have hprint : (leaf nt).print Γ = some nil := hnt
    rw [ofChildren, flatPrint_of_print hprint, flatWith_nil hlist]
    rfl
  | [c], _ => rw [ofChildren, List.flatMap_singleton]
  | _ :: _ :: _, hkind => exact absurd rfl hkind

lemma sym_flags (hs : k.sym = some s) :
    s.aciAssociative = true ∧ s.aciIdempotent = isAssocCommIdem k ∧
      s.aciCommutative = (isAssocComm k || isAssocCommIdem k) := by
  cases k <;> cases hs <;> exact ⟨rfl, rfl, rfl⟩

lemma sameOperands_normalChildren (le : AciNode Term → AciNode Term → Bool)
    (hs : k.sym = some s) (f : AciNode Term → List Term) :
    SameOperands s ((operandsList k nt cs).flatMap f) ((normalChildren le k nt cs).flatMap f) := by
  obtain ⟨_, hidem, hcomm⟩ := sym_flags hs
  refine ⟨?_, ?_, ?_⟩
  · intro x
    simp only [List.mem_flatMap, mem_normalChildren]
  · intro hnot
    rw [hidem] at hnot
    refine List.Perm.flatMap_right f ?_
    rw [normalChildren, addOperands_eq, hnot, pushAll_false, List.nil_append]
    split
    · exact (List.perm_insertionSort _ _).symm
    · exact .refl _
  intro hnot
  rw [hcomm] at hnot
  obtain ⟨_, hidem⟩ := Bool.or_eq_false_iff.1 hnot
  rw [normalChildren, hnot, if_neg Bool.false_ne_true, addOperands_eq, hidem, pushAll_false,
    List.nil_append]

/-! ## Normal forms of printed nodes -/

lemma AppPrint.term_eq (p : AppPrint Γ k cs T t) :
    t = bop p.s p.x (prependNAryChildren (.sym p.s) p.nil p.xs) := p.term

lemma AppPrint.getAciNormalForm_isSome (p : AppPrint Γ k cs T t) :
    ∃ tn, getAciNormalForm Γ t = some tn := by
  have hterm := p.term_eq
  have hmem := p.of_typed t p.typed
  have hnil : nilAt Γ p.s t = some p.nil := by rw [nilAt, p.typed, bind_some, p.nil_eq]
  have hnorm := getAciNormalForm_eq (sym_flags p.sym).1 p.list (by rw [← hterm]; exact hmem)
    (by rw [← hterm]; exact hnil)
  rw [← hterm] at hnorm
  exact ⟨_, hnorm⟩

lemma eoNil_strConcat_isSome (S : Ty) : ∃ nil, eoNil .strConcat (.seq S) = some nil := by
  change ∃ nil, EthosCpc.seqEmpty (.seq S) = some nil
  cases S <;> exact ⟨_, rfl⟩

lemma getAciNormalForm_other (ht : isOtherTerm t = true) (htype : typeof Γ t = some S) :
    ∃ tn, getAciNormalForm Γ t = some tn := by
  by_cases hconcat : ∃ x y, t = bop .strConcat x y
  · obtain ⟨x, y, rfl⟩ := hconcat
    obtain ⟨A, B, _, _, hres⟩ := typeof_bop_inv rfl htype
    obtain ⟨_, _, U, -, rfl⟩ := tySeq2_inv hres
    obtain ⟨nil, hnil⟩ := eoNil_strConcat_isSome U
    have htyped := typeof_seqEmpty (Γ := Γ) hnil
    have hlist : NormList Γ .strConcat nil fun t => typeof Γ t = some (.seq U) :=
      closed_strConcat.normList htyped.2 htyped.1 hnil fun h => by cases h
    exact ⟨_, getAciNormalForm_eq rfl hlist htype (by rw [nilAt, htype, bind_some, hnil])⟩
  · unfold getAciNormalForm
    split
    all_goals first
      | exact ⟨_, rfl⟩
      | exact absurd ⟨_, _, rfl⟩ hconcat
      | exact absurd ht (by simp [isOtherTerm, Sym.aciAssociative, Sym.aciCommutative])

lemma getAciNormalForm_leaf {l : AciLeaf Term} (ht : (leaf l).print Γ = some t)
    (htype : typeof Γ t = some S) : ∃ tn, getAciNormalForm Γ t = some tn := by
  refine getAciNormalForm_other ?_ htype
  match l with
  | .constBoolean b => cases ht; rfl
  | .constBitvector w v => cases ht; rfl
  | .constFiniteField n v => cases ht
  | .emptyWord T =>
    change EthosCpc.seqEmpty T = some t at ht
    unfold EthosCpc.seqEmpty at ht
    split at ht
    · cases ht; rfl
    · cases ht; rfl
    · cases ht
  | .emptyRegexp => cases ht; rfl
  | .regexpNone => cases ht; rfl
  | .regexpAll => cases ht; rfl
  | .bvEmpty => cases ht; rfl
  | .other (.base S) u =>
    rw [AciNode.print, AciLeaf.print] at ht
    split at ht
    · rename_i hu
      cases ht
      exact hu.2
    · cases ht
  | .other (.finiteField n) u => cases ht

lemma getAciNormalForm_print {n : AciNode Term} (hT : n.typeOf = some T)
    (ht : n.print Γ = some t) : ∃ tn, getAciNormalForm Γ t = some tn := by
  cases n with
  | leaf l =>
    obtain ⟨S, _, htype⟩ := print_typed _ hT ht
    exact getAciNormalForm_leaf ht htype
  | app k cs =>
    obtain ⟨p⟩ := exists_appPrint (fun c _ => print_typed c) hT ht
    exact p.getAciNormalForm_isSome

/-! ## Steps -/

lemma AppPrint.sameOperands (p : AppPrint Γ k cs T t) (hT : (app k cs).typeOf = some T)
    (ht : (app k cs).print Γ = some t) (le : AciNode Term → AciNode Term → Bool) :
    SameOperands p.s (flatWith id p.s p.nil t)
      ((normalChildren le k p.nt cs).flatMap (flatPrint Γ p.s p.nil)) := by
  rw [← flatPrint_of_print ht, flatPrint_eq p.list p.sym p.nt_print _ hT p.nullTerminator ht,
    operands_app]
  exact sameOperands_normalChildren le p.sym _

lemma sameOperands_of_normalForm (p : AppPrint Γ k cs T t) {le : AciNode Term → AciNode Term → Bool}
    (ha : (app k cs).typeOf = some T) (ha' : (app k cs).print Γ = some t) {b : AciNode Term}
    {b' : Term} (hb : b.typeOf = some T) (hb' : b.print Γ = some b')
    (h : if (app k cs).kind? = b.kind? ∧ (app k cs).kind?.isSome then
        computeACINormalForm le (app k cs) = computeACINormalForm le b
      else computeACINormalForm le (app k cs) = b) :
    SameOperands p.s (flatWith id p.s p.nil t) (flatWith id p.s p.nil b') := by
  refine (p.sameOperands ha ha' le).trans ?_
  rw [computeACINormalForm_app le ha p.nullTerminator] at h
  split at h
  · rename_i hkind
    cases b with
    | leaf l => exact absurd hkind.1 (by simp [kind?])
    | app k' cs' =>
      obtain rfl : k = k' := some.inj hkind.1
      obtain ⟨q⟩ := exists_appPrint (fun c _ => print_typed c) hb hb'
      have hsame := q.sameOperands hb hb' le
      rw [computeACINormalForm_app le hb p.nullTerminator] at h
      have hchildren := ofChildren_inj (isOperand_of_mem_normalChildren le)
        (isOperand_of_mem_normalChildren le) h
      have hnt : q.nt = p.nt := some.inj (q.nullTerminator.symm.trans p.nullTerminator)
      have hnil : q.nil = p.nil := by
        have hprint := q.nt_print
        rw [hnt, p.nt_print] at hprint
        exact (some.inj hprint).symm
      have hsym : q.s = p.s := some.inj (q.sym.symm.trans p.sym)
      rw [hnt, hnil, hsym] at hsame
      rw [hchildren]
      exact hsame.symm
  · rename_i hkind
    have hne : b.kind? ≠ some k := fun heq => hkind ⟨heq.symm, rfl⟩
    rw [← h] at hne
    rw [flatMap_of_ofChildren p.list p.nt_print hne, h, flatPrint_of_print hb']
    exact .refl _

lemma isAbsorbRec_prepend {zero : Term} {l : List Term}
    (h : ∃ x ∈ l, isAbsorbRec (.sym s) zero x = true) :
    isAbsorbRec (.sym s) zero (prependNAryChildren (.sym s) nil l) = true := by
  induction l with
  | nil => simp at h
  | cons x l ih =>
    obtain ⟨y, hy, habs⟩ := h
    rw [prependNAryChildren_cons, isAbsorbRec]
    split
    · rfl
    rw [if_pos rfl, Bool.or_eq_true]
    rcases List.mem_cons.1 hy with rfl | hy
    · exact .inl habs
    · exact .inr (ih ⟨y, hy, habs⟩)

lemma isAbsorbRec_self (f t : Term) : isAbsorbRec f t t = true := by
  unfold isAbsorbRec
  split
  · exact if_pos rfl
  · exact decide_eq_true rfl

lemma isAbsorb_of_rec {x y z : Term} (ht : t = bop s x y)
    (h : isAbsorbRec (.sym s) z t = true) : EthosCpc.isAbsorb t z = some true := by
  subst ht
  exact congrArg some h

lemma isAbsorbRec_print (hs : k.sym = some s) {zero : AciLeaf Term} {z : Term}
    (hz : zero.print Γ = some z) (n : AciNode Term) : ∀ {t : Term}, n.print Γ = some t →
      absorbs k (some zero) n = true → isAbsorbRec (.sym s) z t = true := by
  induction n with
  | leaf l =>
    intro t _ h
    cases h
  | app k' cs ih =>
    intro t ht h
    rw [absorbs, Bool.and_eq_true, decide_eq_true_eq, absorbsAny_eq] at h
    obtain ⟨rfl, h⟩ := h
    obtain ⟨c, hc, h⟩ := List.any_eq_true.1 h
    obtain ⟨s', x, xs, nil, hs', hts, -, rfl⟩ := print_app_inv ht
    cases hs'.symm.trans hs
    obtain ⟨u, hu, hprint⟩ := mem_print hts hc
    refine isAbsorbRec_prepend ⟨u, hu, ?_⟩
    rw [Bool.or_eq_true, decide_eq_true_eq] at h
    rcases h with h | h
    · rw [← some.inj h] at hprint
      cases hz.symm.trans hprint
      exact isAbsorbRec_self _ z
    · exact ih c hc hprint h

lemma bvOnes_eq (hw : w < maxWidth) : bvOnes w = some (.bin w (BitVec.allOnes w)) := by
  have hones := eoToBin_natCast hw (arithEvalIntPow2Num w - 1)
  exact hones.trans (congrArg some (bvOnes_inv hones))

lemma lt_maxWidth (h : eoToBin w 0 = some nil) : w < maxWidth :=
  Int.ofNat_lt.1 (eoToBin_inv h).2.1

lemma AppPrint.getZero_eq (p : AppPrint Γ k cs T t) (hk : isAbsorbKind k = true)
    {zero : AciLeaf Term} (hzero : getZeroElement k T = some zero) :
    ∃ z, zero.print Γ = some z ∧ getZero Γ t = some z := by
  obtain ⟨s, nil, nt, x, xs, S, E, sym, -, rfl, rfl, typed, nil_eq, -, -, -, -⟩ := p
  match k, S, hk, sym, hzero with
  | .or, _, _, sym, hzero | .and, _, _, sym, hzero | .regexpUnion, _, _, sym, hzero
  | .regexpInter, _, _, sym, hzero | .regexpConcat, _, _, sym, hzero =>
    cases sym
    cases hzero
    exact ⟨_, rfl, rfl⟩
  | .bitvectorOr, .bitvec w, _, sym, hzero =>
    cases sym
    cases hzero
    have hx := ((closed_bv2 rfl rfl).args _ _ typed).1
    refine ⟨_, rfl, ?_⟩
    rw [eoNil, Ty.width, bind_some] at nil_eq
    have hlt := lt_maxWidth nil_eq
    rw [prependNAryChildren_cons, getZero, bvBitwidth, hx, bind_some, Ty.width,
      bind_some, bvOnes_eq hlt]
  | .bitvectorAnd, .bitvec w, _, sym, hzero =>
    cases sym
    cases hzero
    have hx := ((closed_bv2 rfl rfl).args _ _ typed).1
    refine ⟨_, rfl, ?_⟩
    rw [eoNil, Ty.width, bind_some] at nil_eq
    obtain ⟨z, hz, _⟩ := bind_inv nil_eq
    have hlt := lt_maxWidth hz
    rw [prependNAryChildren_cons, getZero, bvBitwidth, hx, bind_some, Ty.width,
      bind_some, eoToBin_natCast hlt]
    rfl

lemma absorb_of_getZero {z : Term} {t : Term} (hz : getZero Γ t = some z)
    (h : EthosCpc.isAbsorb t z = some true) : absorb Γ (bop .eq t z) = some (bop .eq t z) := by
  rw [absorb, eoRequires_eq_some, eoRequires_eq_some]
  exact ⟨decide_eq_true hz, decide_eq_true h, rfl⟩

/-- A proposition, printed as a constant. -/
abbrev varLeaf : AciNode Term := .leaf (.other (.base .bool) (.const 0))

end EthosCpc.Cvc5
