import EthosCpc.Cvc5.AciNorm
import EthosCpc.Library.BitAppend
import EthosCpc.Library.FoldRead
import EthosCpc.Library.PartialHeap

/-!
# Soundness of the normal forms of cvc5

An operator is a monoid on the values of its arguments, so that flattening and
dropping its identity keep the value; sorting needs commutativity, and dropping
repetitions idempotence.  Separating conjunction and the operations of finite
fields are not idempotent, and `true` is no identity of the former: there the
value is kept where nothing is dropped.

The value of a node depends on the heap, since separating conjunction speaks
about parts of it.
-/

namespace EthosCpc.Cvc5

open Library
open Option (bind_eq_some_iff bind_some map_eq_some_iff some.inj)
open List (append_nil foldl_cons forall_mem_cons map_cons nil_append sum_cons)
open Function (update_of_ne update_self)
open BitVec (allOnes_and and_allOnes and_assoc or_zero setWidth_eq zero_or)

variable {α : Type}

/-! ## Values -/

/-- The values of a type. -/
def AciType.Dom (U : Nat → Type) : AciType → Type
  | .base T => EthosCpc.Dom U T
  | .finiteField n => ZMod n

/-- An interpretation of the sorts, of the heap and of the nodes of other kinds. -/
structure AciInterp (α : Type) where
  U : Nat → Type
  Loc : Type
  Data : Type
  other : (T : AciType) → α → PHeap Loc Data → T.Dom U
  /-- A value of each type, which no well-typed node has for lack of another one. -/
  default : (T : AciType) → T.Dom U

/-- The values of nodes of type `T`, which depend on the heap. -/
abbrev HVal (I : AciInterp α) (T : AciType) : Type := PHeap I.Loc I.Data → T.Dom I.U

def AciLeaf.value (I : AciInterp α) : (T : AciType) → AciLeaf α → HVal I T
  | .base .bool, .constBoolean b => fun _ => b
  | .base (.bitvec w), .constBitvector _ v => fun _ => v.setWidth w
  | .finiteField n, .constFiniteField _ v => fun _ => (v.cast : ZMod n)
  | .base (.seq _), .emptyWord _ => fun _ => []
  | .base .reglan, .emptyRegexp => fun _ => (1 : RegLan)
  | .base .reglan, .regexpNone => fun _ => (0 : RegLan)
  | .base .reglan, .regexpAll => fun _ => (⊤ : RegLan)
  | .base (.bitvec w), .bvEmpty => fun _ => 0#w
  | T, .other _ x => I.other T x
  | T, _ => fun _ => I.default T

def heapwise {H A : Type} (f : A → A → A) (p q : H → A) (h : H) : A := f (p h) (q h)

/-- The operators on two values of one type. -/
noncomputable def kindOp (I : AciInterp α) :
    AciKind → (T : AciType) → HVal I T → HVal I T → HVal I T
  | .or, .base .bool => heapwise or
  | .and, .base .bool => heapwise and
  | .sepStar, .base .bool => sepConj
  | .regexpUnion, .base .reglan => heapwise fun L K : RegLan => L + K
  | .regexpInter, .base .reglan => heapwise (fun L K => L ⊓ K : RegLan → RegLan → RegLan)
  | .regexpConcat, .base .reglan => heapwise fun L K : RegLan => L * K
  | .bitvectorAnd, .base (.bitvec w) => heapwise fun x y : BitVec w => x &&& y
  | .bitvectorOr, .base (.bitvec w) => heapwise fun x y : BitVec w => x ||| y
  | .bitvectorXor, .base (.bitvec w) => heapwise fun x y : BitVec w => x ^^^ y
  | .stringConcat, .base (.seq _) => heapwise List.append
  | .finiteFieldAdd, .finiteField n => heapwise fun x y : ZMod n => x + y
  | .finiteFieldMult, .finiteField n => heapwise fun x y : ZMod n => x * y
  | _, _ => fun p _ => p

def chain {M : Type} (op : M → M → M) (d : M) : List M → M
  | [] => d
  | v :: vs => vs.foldl op v

def widthOf : Option AciType → Nat
  | some (.base (.bitvec w)) => w
  | _ => 0

def concatOp (I : AciInterp α) :
    (PHeap I.Loc I.Data → Σ w, BitVec w) → (PHeap I.Loc I.Data → Σ w, BitVec w) →
      PHeap I.Loc I.Data → Σ w, BitVec w := heapwise bitAppend

def concatValue (I : AciInterp α) (bs : List (PHeap I.Loc I.Data → Σ w, BitVec w)) :
    (T : AciType) → HVal I T
  | .base (.bitvec w) => fun h => (chain (concatOp I) (fun _ => ⟨0, 0#0⟩) bs h).2.setWidth w
  | T => fun _ => I.default T

namespace AciNode

mutual

/-- The value of a node, as a node of type `T`. -/
noncomputable def value (I : AciInterp α) : AciNode α → (T : AciType) → HVal I T
  | .leaf l, T => l.value I T
  | .app k cs, T =>
    if k = .bitvectorConcat then concatValue I (bitvecs I cs) T
    else chain (kindOp I k T) (fun _ => I.default T) (values I cs T)

noncomputable def values (I : AciInterp α) : List (AciNode α) → (T : AciType) → List (HVal I T)
  | [], _ => []
  | c :: cs, T => value I c T :: values I cs T

/-- The values of arguments that are bit-vectors. -/
noncomputable def bitvecs (I : AciInterp α) :
    List (AciNode α) → List (PHeap I.Loc I.Data → Σ w, BitVec w)
  | [] => []
  | c :: cs =>
    (fun h => ⟨widthOf c.typeOf, value I c (.base (.bitvec (widthOf c.typeOf))) h⟩) :: bitvecs I cs

end

end AciNode

/-! ## Chains -/

section Chains

variable {M A : Type} {op : M → M → M} {d e : M}

lemma foldl_eq_foldRead (hassoc : Std.Associative op) (hident : Std.LawfulIdentity op e)
    (f : A → M) (v : M) (l : List A) :
    (foldRead op e (fun x => some (f x)) l).map (op v) = some ((l.map f).foldl op v) := by
  induction l generalizing v with
  | nil => exact congrArg some (Std.LawfulRightIdentity.right_id v)
  | cons x l ih =>
    rw [map_cons, foldl_cons, ← ih (op v (f x)), foldRead, bind_some, Option.map_map]
    congr 1
    funext m
    exact (hassoc.assoc v (f x) m).symm

lemma foldRead_eq_chain (hassoc : Std.Associative op) (hident : Std.LawfulIdentity op e)
    (f : A → M) {l : List A} (hl : l ≠ []) :
    foldRead op e (fun x => some (f x)) l = some (chain op d (l.map f)) := by
  obtain ⟨x, l, rfl⟩ := List.exists_cons_of_ne_nil hl
  rw [foldRead, bind_some, foldl_eq_foldRead hassoc hident]
  rfl

end Chains

/-! ## Types of arguments -/

namespace AciNode

variable {cs : List (AciNode α)} {Ts : List AciType} {k : AciKind} {T : AciType}

lemma typesOf_cons_inv {c : AciNode α} (h : typesOf (c :: cs) = some Ts) :
    ∃ T Ts', c.typeOf = some T ∧ typesOf cs = some Ts' ∧ Ts = T :: Ts' := by
  rw [typesOf] at h
  obtain ⟨T, hT, h⟩ := bind_inv h
  obtain ⟨Ts', hTs, rfl⟩ := map_inv h
  exact ⟨T, Ts', hT, hTs, rfl⟩

lemma typeOf_of_mem (h : typesOf cs = some Ts) : ∀ c ∈ cs, ∃ T ∈ Ts, c.typeOf = some T := by
  induction cs generalizing Ts with
  | nil => simp
  | cons c cs ih =>
    obtain ⟨T, Ts', hT, hTs, rfl⟩ := typesOf_cons_inv h
    refine forall_mem_cons.2 ⟨⟨T, by simp, hT⟩, ?_⟩
    intro c' hc'
    obtain ⟨T', hmem, hT'⟩ := ih hTs c' hc'
    exact ⟨T', List.mem_cons_of_mem T hmem, hT'⟩

lemma typesOf_ne_nil (h : typesOf cs = some Ts) : cs = [] ↔ Ts = [] := by
  cases cs with
  | nil =>
    cases h
    simp
  | cons c cs =>
    obtain ⟨T, Ts', -, -, rfl⟩ := typesOf_cons_inv h
    simp

lemma typesOf_of_forall {fam : AciType → Prop} (h : ∀ c ∈ cs, ∃ T, c.typeOf = some T ∧ fam T) :
    ∃ Ts, typesOf cs = some Ts ∧ ∀ T ∈ Ts, fam T := by
  induction cs with
  | nil => exact ⟨[], rfl, by simp⟩
  | cons c cs ih =>
    obtain ⟨⟨T, hT, hfam⟩, hcs⟩ := forall_mem_cons.1 h
    obtain ⟨Ts, hTs, hfams⟩ := ih hcs
    exact ⟨T :: Ts, by rw [typesOf, hT, bind_some, hTs]; rfl,
      forall_mem_cons.2 ⟨hfam, hfams⟩⟩

lemma typeOf_app_inv (h : (app k cs).typeOf = some T) :
    ∃ Ts, typesOf cs = some Ts ∧ AciType.ofArgs k Ts = some T := by
  rw [typeOf] at h
  exact bind_inv h

end AciNode

/-! ## Operators as monoids -/

/-- The operator is a monoid on what its arguments, of a family of types, are read as. -/
structure KindModel (I : AciInterp α) (k : AciKind) (fam : AciType → Prop) where
  M : Type
  op : M → M → M
  e : M
  assoc : Std.Associative op
  ident : Std.LawfulIdentity op e
  read : AciNode α → M
  read_app : ∀ {cs : List (AciNode α)} {T : AciType}, (AciNode.app k cs).typeOf = some T → fam T →
    read (.app k cs) = chain op e (cs.map read)
  args : ∀ {Ts : List AciType} {T : AciType}, AciType.ofArgs k Ts = some T → fam T →
    Ts ≠ [] ∧ ∀ T' ∈ Ts, fam T'
  ofArgs : ∀ {Ts : List AciType}, Ts ≠ [] → (∀ T ∈ Ts, fam T) →
    ∃ T, AciType.ofArgs k Ts = some T ∧ fam T
  value_eq : ∀ {a b : AciNode α} {T T' : AciType}, a.typeOf = some T → b.typeOf = some T' →
    fam T → fam T' → read a = read b → a.value I T = b.value I T

lemma common_eq_some {Ts : List AciType} {T : AciType} :
    AciType.common Ts = some T ↔ Ts ≠ [] ∧ ∀ T' ∈ Ts, T' = T := by
  cases Ts with
  | nil => simp [AciType.common]
  | cons S Ts =>
    rw [AciType.common]
    constructor
    · intro h
      split at h
      · rename_i hall
        cases h
        simpa using hall
      · cases h
    · rintro ⟨-, h⟩
      obtain ⟨rfl, hTs⟩ := forall_mem_cons.1 h
      rw [if_pos (by simpa using hTs)]

lemma ofArgs_eq_some {k : AciKind} (hk : k ≠ .bitvectorConcat) {Ts : List AciType} {T : AciType} :
    AciType.ofArgs k Ts = some T ↔ AciType.common Ts = some T ∧ AciType.admits k T = true := by
  rw [AciType.ofArgs, if_neg hk, bind_eq_some_iff]
  constructor
  · rintro ⟨S, hS, h⟩
    split at h
    · cases h
      exact ⟨hS, by assumption⟩
    · cases h
  · rintro ⟨hS, hadmits⟩
    exact ⟨T, hS, if_pos hadmits⟩

lemma value_app (I : AciInterp α) {k : AciKind} (hk : k ≠ .bitvectorConcat)
    (cs : List (AciNode α)) (T : AciType) : (AciNode.app k cs).value I T =
      chain (kindOp I k T) (fun _ => I.default T) (AciNode.values I cs T) := by
  rw [AciNode.value, if_neg hk]

lemma values_eq_map (I : AciInterp α) (cs : List (AciNode α)) (T : AciType) :
    AciNode.values I cs T = cs.map fun c => c.value I T := by
  induction cs with
  | nil => rfl
  | cons c cs ih => rw [AciNode.values, ih, map_cons]

/-- The operators with arguments of one type. -/
noncomputable def homModel (I : AciInterp α) {k : AciKind} {T : AciType}
    (hk : k ≠ .bitvectorConcat) (hT : AciType.admits k T = true) {e : HVal I T}
    (assoc : Std.Associative (kindOp I k T)) (ident : Std.LawfulIdentity (kindOp I k T) e) :
    KindModel I k (· = T) where
  M := HVal I T
  op := kindOp I k T
  e := e
  assoc := assoc
  ident := ident
  read := fun n => n.value I T
  read_app := by
    rintro cs _ h rfl
    obtain ⟨Ts, hTs, hof⟩ := AciNode.typeOf_app_inv h
    have hne := (common_eq_some.1 ((ofArgs_eq_some hk).1 hof).1).1
    have hcs : cs ≠ [] := fun heq => hne ((AciNode.typesOf_ne_nil hTs).1 heq)
    rw [value_app I hk, values_eq_map]
    obtain ⟨c, cs, rfl⟩ := List.exists_cons_of_ne_nil hcs
    rfl
  args := by
    rintro Ts _ h rfl
    exact common_eq_some.1 ((ofArgs_eq_some hk).1 h).1
  ofArgs := fun hne h => ⟨T, (ofArgs_eq_some hk).2 ⟨common_eq_some.2 ⟨hne, h⟩, hT⟩, rfl⟩
  value_eq := by
    rintro a b _ _ - - rfl rfl h
    exact h

lemma widths_bitvec {Ts : List AciType} {w : Nat} (h : AciType.widths Ts = some w) :
    (∀ T ∈ Ts, ∃ w, T = .base (.bitvec w)) ∧ (Ts.map fun T => widthOf (some T)).sum = w := by
  induction Ts generalizing w with
  | nil =>
    cases h
    simp
  | cons T Ts ih =>
    match T, h with
    | .base (.bitvec v), h =>
      rw [AciType.widths] at h
      obtain ⟨u, hu, rfl⟩ := map_inv h
      obtain ⟨hTs, hsum⟩ := ih hu
      exact ⟨forall_mem_cons.2 ⟨⟨v, rfl⟩, hTs⟩, by rw [map_cons, sum_cons, hsum]; rfl⟩

lemma widths_isSome {Ts : List AciType} (h : ∀ T ∈ Ts, ∃ w, T = .base (.bitvec w)) :
    ∃ w, AciType.widths Ts = some w := by
  induction Ts with
  | nil => exact ⟨0, rfl⟩
  | cons T Ts ih =>
    obtain ⟨⟨v, rfl⟩, hTs⟩ := forall_mem_cons.1 h
    obtain ⟨u, hu⟩ := ih hTs
    exact ⟨v + u, by rw [AciType.widths, hu]; rfl⟩

lemma ofArgs_concat {Ts : List AciType} {T : AciType} :
    AciType.ofArgs .bitvectorConcat Ts = some T ↔
      Ts ≠ [] ∧ ∃ w, AciType.widths Ts = some w ∧ T = .base (.bitvec w) := by
  rw [AciType.ofArgs, if_pos rfl]
  by_cases hTs : Ts = []
  · simp [hTs]
  · rw [if_neg hTs, map_eq_some_iff]
    simp [hTs, eq_comm]

noncomputable def readBits (I : AciInterp α) (n : AciNode α) (h : PHeap I.Loc I.Data) :
    Σ w, BitVec w :=
  ⟨widthOf n.typeOf, n.value I (.base (.bitvec (widthOf n.typeOf))) h⟩

lemma bitvecs_eq_map (I : AciInterp α) (cs : List (AciNode α)) :
    AciNode.bitvecs I cs = cs.map (readBits I) := by
  induction cs with
  | nil => rfl
  | cons c cs ih => rw [AciNode.bitvecs, ih, map_cons]; rfl

lemma foldl_concatOp_width (I : AciInterp α) (h : PHeap I.Loc I.Data)
    (v : PHeap I.Loc I.Data → Σ w, BitVec w) (bs : List (PHeap I.Loc I.Data → Σ w, BitVec w)) :
    (bs.foldl (concatOp I) v h).1 = (v h).1 + (bs.map fun b => (b h).1).sum := by
  induction bs generalizing v with
  | nil => rfl
  | cons b bs ih =>
    rw [foldl_cons, ih, map_cons, sum_cons, ← Nat.add_assoc]
    rfl

lemma chain_concatOp_width (I : AciInterp α) (h : PHeap I.Loc I.Data) (cs : List (AciNode α)) :
    (chain (concatOp I) (fun _ => ⟨0, 0#0⟩) (cs.map (readBits I)) h).1 =
      (cs.map fun c => widthOf c.typeOf).sum := by
  cases cs with
  | nil => rfl
  | cons c cs =>
    rw [map_cons, chain, foldl_concatOp_width, List.map_map, map_cons, sum_cons]
    rfl

lemma map_widthOf_typeOf {cs : List (AciNode α)} {Ts : List AciType}
    (h : AciNode.typesOf cs = some Ts) :
    (cs.map fun c => widthOf c.typeOf) = Ts.map fun T => widthOf (some T) := by
  induction cs generalizing Ts with
  | nil =>
    cases h
    rfl
  | cons c cs ih =>
    obtain ⟨T, Ts', hT, hTs, rfl⟩ := AciNode.typesOf_cons_inv h
    rw [map_cons, map_cons, hT, ih hTs]

lemma sigma_setWidth {x : Σ w, BitVec w} {w : Nat} (h : x.1 = w) :
    (⟨w, x.2.setWidth w⟩ : Σ w, BitVec w) = x := by
  obtain ⟨v, x⟩ := x
  subst h
  rw [setWidth_eq]

noncomputable def concatModel (I : AciInterp α) :
    KindModel I .bitvectorConcat fun T => ∃ w, T = .base (.bitvec w) where
  M := PHeap I.Loc I.Data → Σ w, BitVec w
  op := concatOp I
  e := fun _ => ⟨0, 0#0⟩
  assoc := ⟨fun p q r => funext fun h => bitAppend_assoc.assoc (p h) (q h) (r h)⟩
  ident := {
    left_id := fun p => funext fun h => bitAppend_ident.left_id (p h)
    right_id := fun p => funext fun h => bitAppend_ident.right_id (p h) }
  read := readBits I
  read_app := by
    rintro cs _ htype ⟨w, rfl⟩
    obtain ⟨Ts, hTs, hof⟩ := AciNode.typeOf_app_inv htype
    obtain ⟨-, v, hv, heq⟩ := ofArgs_concat.1 hof
    cases heq
    funext h
    have hwidth := chain_concatOp_width I h cs
    rw [map_widthOf_typeOf hTs, (widths_bitvec hv).2] at hwidth
    rw [readBits, htype, AciNode.value, if_pos rfl, bitvecs_eq_map]
    exact sigma_setWidth hwidth
  args := by
    rintro Ts _ h ⟨w, rfl⟩
    obtain ⟨hne, v, hv, -⟩ := ofArgs_concat.1 h
    exact ⟨hne, (widths_bitvec hv).1⟩
  ofArgs := by
    intro Ts hne h
    obtain ⟨w, hw⟩ := widths_isSome h
    exact ⟨_, ofArgs_concat.2 ⟨hne, w, hw, rfl⟩, w, rfl⟩
  value_eq := by
    rintro a b _ _ ha hb ⟨w, rfl⟩ ⟨w', rfl⟩ h
    funext g
    have hg := congrFun h g
    rw [readBits, readBits, ha, hb] at hg
    obtain rfl : w = w' := congrArg Sigma.fst hg
    exact eq_of_heq (Sigma.mk.inj hg).2

/-! ## Operands -/

namespace AciNode

mutual

/-- The operands of nested applications of `k`. -/
def rawOperands (k : AciKind) : AciNode α → List (AciNode α)
  | .leaf l => [.leaf l]
  | .app k' cs => if k' = k then rawOperandsList k cs else [.app k' cs]

def rawOperandsList (k : AciKind) : List (AciNode α) → List (AciNode α)
  | [] => []
  | c :: cs => rawOperands k c ++ rawOperandsList k cs

end

end AciNode

section Operands

variable {I : AciInterp α} {k : AciKind} {fam : AciType → Prop} {a b : AciNode α}
  {cs : List (AciNode α)} {T : AciType} {nt : AciLeaf α}

open AciNode

lemma KindModel.typed (L : KindModel I k fam) (h : (app k cs).typeOf = some T) (hT : fam T) :
    cs ≠ [] ∧ ∀ c ∈ cs, ∃ T, c.typeOf = some T ∧ fam T := by
  obtain ⟨Ts, hTs, hof⟩ := typeOf_app_inv h
  obtain ⟨hne, hfam⟩ := L.args hof hT
  refine ⟨fun heq => hne ((typesOf_ne_nil hTs).1 heq), ?_⟩
  intro c hc
  obtain ⟨T', hmem, hT'⟩ := typeOf_of_mem hTs c hc
  exact ⟨T', hT', hfam T' hmem⟩

def KindModel.combine (L : KindModel I k fam) (l : List (AciNode α)) : Option L.M :=
  foldRead L.op L.e (fun n => some (L.read n)) l

lemma KindModel.combine_app (L : KindModel I k fam) (h : (app k cs).typeOf = some T)
    (hT : fam T) : L.combine cs = some (L.read (app k cs)) := by
  rw [L.read_app h hT]
  exact foldRead_eq_chain L.assoc L.ident L.read (L.typed h hT).1

lemma KindModel.combine_singleton (L : KindModel I k fam) (n : AciNode α) :
    L.combine [n] = some (L.read n) :=
  have := L.ident
  foldRead_singleton n

variable {n : AciNode α}

variable {l : List (AciNode α)} {L : KindModel I k fam}

lemma KindModel.combine_cons (L : KindModel I k fam)
    {m : L.M} (h : L.combine l = some m) : L.combine (n :: l) = some (L.op (L.read n) m) := by
  rw [KindModel.combine, foldRead, bind_some]
  exact congrArg (Option.map _) h

lemma KindModel.combine_isSome (L : KindModel I k fam) (l : List (AciNode α)) :
    ∃ m, L.combine l = some m := by
  induction l with
  | nil => exact ⟨L.e, rfl⟩
  | cons n l ih =>
    obtain ⟨m, hm⟩ := ih
    exact ⟨_, L.combine_cons hm⟩

lemma KindModel.combine_append (L : KindModel I k fam) {l' : List (AciNode α)} {m m' : L.M}
    (h : L.combine l = some m) (h' : L.combine l' = some m') :
    L.combine (l ++ l') = some (L.op m m') :=
  have := L.ident
  have := L.assoc
  foldRead_append h h'

lemma rawOperands_spec (L : KindModel I k fam) (n : AciNode α) :
    ∀ {T : AciType}, n.typeOf = some T → fam T → L.combine (rawOperands k n) = some (L.read n) ∧
        ∀ c ∈ rawOperands k n, ∃ T, c.typeOf = some T ∧ fam T := by
  induction n with
  | leaf l =>
    intro T h hT
    rw [rawOperands]
    exact ⟨L.combine_singleton _, List.forall_mem_singleton.2 ⟨T, h, hT⟩⟩
  | app k' cs ih =>
    intro T h hT
    rw [rawOperands]
    split
    swap
    · exact ⟨L.combine_singleton _, List.forall_mem_singleton.2 ⟨T, h, hT⟩⟩
    rename_i hk
    subst hk
    rw [← L.combine_app h hT]
    have htyped := (L.typed h hT).2
    clear h
    induction cs with
    | nil => exact ⟨rfl, by simp [rawOperandsList]⟩
    | cons c cs ihs =>
      obtain ⟨⟨S, hS, hfam⟩, htyped⟩ := forall_mem_cons.1 htyped
      obtain ⟨hc, hcs⟩ := forall_mem_cons.1 ih
      obtain ⟨hcomb, hops⟩ := ihs hcs htyped
      obtain ⟨hread, hop⟩ := hc hS hfam
      rw [rawOperandsList]
      refine ⟨?_, List.forall_mem_append.2 ⟨hop, hops⟩⟩
      obtain ⟨m, hm⟩ := L.combine_isSome cs
      rw [L.combine_append hread (hcomb.trans hm), L.combine_cons hm]

lemma KindModel.combine_filter (L : KindModel I k fam) {p : AciNode α → Bool}
    (h : ∀ n ∈ l, p n = false → L.read n = L.e) :
    L.combine (l.filter p) = L.combine l := by
  induction l with
  | nil => rfl
  | cons n l ih =>
    obtain ⟨hn, hl⟩ := forall_mem_cons.1 h
    obtain ⟨m, hm⟩ := L.combine_isSome l
    rw [L.combine_cons hm]
    cases hp : p n with
    | true => rw [List.filter_cons_of_pos hp, L.combine_cons ((ih hl).trans hm)]
    | false =>
      have hid : L.op L.e m = m := L.ident.left_id m
      rw [List.filter_cons_of_neg (by simp [hp]), ih hl, hm, hn hp, hid]

lemma rawOperands_ne_nil (L : KindModel I k fam) (n : AciNode α) :
    ∀ {T : AciType}, n.typeOf = some T → fam T → rawOperands k n ≠ [] := by
  induction n with
  | leaf l => simp [rawOperands]
  | app k' cs ih =>
    intro T h hT
    rw [rawOperands]
    split
    swap
    · simp
    rename_i hk
    subst hk
    obtain ⟨hne, htyped⟩ := L.typed h hT
    obtain ⟨c, cs, rfl⟩ := List.exists_cons_of_ne_nil hne
    obtain ⟨S, hS, hfam⟩ := htyped c (by simp)
    rw [rawOperandsList]
    exact List.append_ne_nil_of_left_ne_nil (ih c (by simp) hS hfam) _

variable [DecidableEq α]

/-- The operands, without the null terminator. -/
def operands (k : AciKind) (nt : AciLeaf α) (n : AciNode α) : List (AciNode α) :=
  (rawOperands k n).filter (· ≠ .leaf nt)

def operandsList (k : AciKind) (nt : AciLeaf α) (cs : List (AciNode α)) : List (AciNode α) :=
  (rawOperandsList k cs).filter (· ≠ .leaf nt)

lemma operandsList_cons (k : AciKind) (nt : AciLeaf α) (c : AciNode α) (cs : List (AciNode α)) :
    operandsList k nt (c :: cs) = operands k nt c ++ operandsList k nt cs := by
  rw [operandsList, rawOperandsList, List.filter_append]
  rfl

lemma operands_app (k : AciKind) (nt : AciLeaf α) (cs : List (AciNode α)) :
    operands k nt (app k cs) = operandsList k nt cs := by
  rw [operands, rawOperands, if_pos rfl]
  rfl

lemma operands_leaf (k : AciKind) (nt l : AciLeaf α) :
    operands k nt (leaf l) = if l = nt then [] else [leaf l] := by
  rw [operands, rawOperands]
  by_cases hl : l = nt
  · simp [hl]
  · simp [hl]

lemma operands_other {k k' : AciKind} (hk : k' ≠ k) (nt : AciLeaf α) (cs : List (AciNode α)) :
    operands k nt (app k' cs) = [app k' cs] := by
  rw [operands, rawOperands, if_neg hk]
  rfl

/-- What the loop does to an operand: a list of operands is handled one by one. -/
def pushAll (aci : Bool) (children l : List (AciNode α)) : List (AciNode α) :=
  l.foldl (fun children cur => if aci && children.contains cur then children
    else children ++ [cur]) children

lemma addOperand_eq (k : AciKind) (nt : AciLeaf α) (aci : Bool) (cur : AciNode α) :
    ∀ children, addOperand k nt aci cur children = pushAll aci children (operands k nt cur) := by
  induction cur with
  | leaf l =>
    intro children
    rw [addOperand, operands_leaf]
    by_cases hl : l = nt
    · rw [if_pos (congrArg _ hl), if_pos hl]
      rfl
    · rw [if_neg fun h => hl (leaf.inj h), if_neg hl]
      rfl
  | app k' cs ih =>
    intro children
    rw [addOperand, if_neg (by simp)]
    by_cases hk : k' = k
    swap
    · rw [if_neg hk, operands_other hk]
      rfl
    subst hk
    rw [if_pos rfl, operands_app]
    induction cs generalizing children with
    | nil => rfl
    | cons c cs ihs =>
      obtain ⟨hc, hcs⟩ := forall_mem_cons.1 ih
      rw [addOperands, hc, ihs _ hcs, operandsList_cons, pushAll, pushAll, pushAll,
        List.foldl_append]

lemma addOperands_eq (k : AciKind) (nt : AciLeaf α) (aci : Bool) (cs children : List (AciNode α)) :
    addOperands k nt aci cs children = pushAll aci children (operandsList k nt cs) := by
  induction cs generalizing children with
  | nil => rfl
  | cons c cs ih =>
    rw [addOperands, addOperand_eq, ih, operandsList_cons, pushAll, pushAll, pushAll,
      List.foldl_append]

lemma pushAll_false (children l : List (AciNode α)) : pushAll false children l = children ++ l := by
  induction l generalizing children with
  | nil => rw [append_nil]; rfl
  | cons n l ih =>
    rw [pushAll, foldl_cons]
    exact (ih _).trans (by simp)

variable {children : List (AciNode α)}

lemma pushAll_of_nodup (aci : Bool)
    (h : (children ++ l).Nodup) : pushAll aci children l = children ++ l := by
  induction l generalizing children with
  | nil => rw [append_nil]; rfl
  | cons n l ih =>
    have hn : n ∉ children := fun hmem =>
      (List.nodup_append.1 h).2.2 n hmem n (by simp) rfl
    rw [pushAll, foldl_cons, List.contains_eq_mem, decide_eq_false hn, Bool.and_false,
      if_neg Bool.false_ne_true]
    exact (ih (by simpa using h)).trans (by simp)

lemma mem_pushAll (aci : Bool) : n ∈ pushAll aci children l ↔ n ∈ children ∨ n ∈ l := by
  induction l generalizing children with
  | nil => simp [pushAll]
  | cons m l ih =>
    rw [pushAll, foldl_cons]
    refine ih.trans ?_
    split
    swap
    · simp [or_assoc]
    rename_i h
    have hm : m ∈ children := by
      rw [Bool.and_eq_true, List.contains_eq_mem, decide_eq_true_eq] at h
      exact h.2
    constructor
    · rintro (h | h)
      · exact .inl h
      · exact .inr (List.mem_cons_of_mem m h)
    rintro (h | h)
    · exact .inl h
    rcases List.mem_cons.1 h with rfl | h
    · exact .inl hm
    · exact .inr h

/-- What the checker assumes about the operator, at an application. -/
structure KindModel.Fits (L : KindModel I k fam) (nt : AciLeaf α) (cs : List (AciNode α)) :
    Prop where
  typed : ∃ T, (leaf nt).typeOf = some T ∧ fam T
  ident : .leaf nt ∈ rawOperandsList k cs → L.read (.leaf nt) = L.e
  comm : (isAssocComm k || isAssocCommIdem k) = true → Std.Commutative L.op
  idem : isAssocCommIdem k = true → Std.IdempotentOp L.op ∨ (operandsList k nt cs).Nodup

def normalChildren (le : AciNode α → AciNode α → Bool) (k : AciKind) (nt : AciLeaf α)
    (cs : List (AciNode α)) : List (AciNode α) :=
  if isAssocComm k || isAssocCommIdem k then
    sortNodes le (addOperands k nt (isAssocCommIdem k) cs [])
  else addOperands k nt (isAssocCommIdem k) cs []

lemma mem_normalChildren (le : AciNode α → AciNode α → Bool) :
    n ∈ normalChildren le k nt cs ↔ n ∈ operandsList k nt cs := by
  have hmem : n ∈ addOperands k nt (isAssocCommIdem k) cs [] ↔ n ∈ operandsList k nt cs := by
    rw [addOperands_eq, mem_pushAll]
    simp
  rw [normalChildren]
  split
  · rw [sortNodes, List.mem_insertionSort, hmem]
  · exact hmem

lemma combine_normalChildren (hL : L.Fits nt cs)
    (le : AciNode α → AciNode α → Bool) (h : (app k cs).typeOf = some T) (hT : fam T) :
    L.combine (normalChildren le k nt cs) = some (L.read (app k cs)) := by
  have hraw : L.combine (rawOperandsList k cs) = some (L.read (app k cs)) := by
    have hspec := (rawOperands_spec L (app k cs) h hT).1
    rwa [rawOperands, if_pos rfl] at hspec
  have hops : L.combine (operandsList k nt cs) = some (L.read (app k cs)) := by
    rw [← hraw]
    refine L.combine_filter ?_
    intro n hn hp
    obtain rfl : n = .leaf nt := by simpa using hp
    exact hL.ident hn
  have hassoc := L.assoc
  have hadded : L.combine (addOperands k nt (isAssocCommIdem k) cs []) =
      some (L.read (app k cs)) := by
    rw [addOperands_eq, ← hops]
    cases haci : isAssocCommIdem k with
    | false => rw [pushAll_false, nil_append]
    | true =>
      rcases hL.idem haci with hidem | hnodup
      · have hcomm := hL.comm (by rw [haci, Bool.or_true])
        refine foldRead_of_subset ?_ ?_
        · intro n hn
          simpa using (mem_pushAll true).1 hn
        · intro n hn
          exact (mem_pushAll true).2 (.inr hn)
      · rw [pushAll_of_nodup true (by simpa using hnodup), nil_append]
  rw [normalChildren]
  split
  swap
  · exact hadded
  rename_i hac
  have hcomm := hL.comm hac
  rw [← hadded]
  exact foldRead_perm (List.perm_insertionSort _ _)

/-- The node with the given operands. -/
def ofChildren (k : AciKind) (nt : AciLeaf α) : List (AciNode α) → AciNode α
  | [] => .leaf nt
  | [c] => c
  | children => .app k children

lemma value_ofChildren (hL : L.Fits nt cs)
    (le : AciNode α → AciNode α → Bool) (h : (app k cs).typeOf = some T) (hT : fam T) :
    (app k cs).value I T = (ofChildren k nt (normalChildren le k nt cs)).value I T := by
  obtain ⟨_, htyped⟩ := rawOperands_spec L (app k cs) h hT
  have hraw : rawOperands k (app k cs) = rawOperandsList k cs := by rw [rawOperands, if_pos rfl]
  rw [hraw] at htyped
  have hchildren : ∀ c ∈ normalChildren le k nt cs, ∃ T, c.typeOf = some T ∧ fam T := by
    intro c hc
    exact htyped c (List.mem_filter.1 ((mem_normalChildren le).1 hc)).1
  have hcomb := combine_normalChildren hL le h hT
  match hnorm : normalChildren le k nt cs with
  | [] =>
    -- all operands are the null terminator
    obtain ⟨T', hT', hfam⟩ := hL.typed
    have hmem : .leaf nt ∈ rawOperandsList k cs := by
      obtain ⟨c, hc⟩ := List.exists_mem_of_ne_nil _ (hraw ▸ rawOperands_ne_nil L (app k cs) h hT)
      by_contra hnt
      have hop : c ∈ operandsList k nt cs :=
        List.mem_filter.2 ⟨hc, by simpa using fun heq : c = leaf nt => hnt (heq ▸ hc)⟩
      rw [← mem_normalChildren le, hnorm] at hop
      simp at hop
    rw [hnorm] at hcomb
    exact L.value_eq h hT' hT hfam ((some.inj hcomb).symm.trans (hL.ident hmem).symm)
  | [c] =>
    obtain ⟨T', hT', hfam⟩ := hchildren c (by rw [hnorm]; simp)
    rw [hnorm, L.combine_singleton] at hcomb
    exact L.value_eq h hT' hT hfam (some.inj hcomb).symm
  | c :: c' :: rest =>
    rw [hnorm] at hchildren hcomb
    obtain ⟨Ts, hTs, hfam⟩ := typesOf_of_forall hchildren
    obtain ⟨T', hof, hfam'⟩ := L.ofArgs (fun heq => by simpa using (typesOf_ne_nil hTs).2 heq) hfam
    have htype : (app k (c :: c' :: rest)).typeOf = some T' := by rw [typeOf, hTs, bind_some, hof]
    rw [L.combine_app htype hfam'] at hcomb
    exact L.value_eq h htype hT hfam' (some.inj hcomb).symm

end Operands

/-! ## The operators of the checker -/

section Heapwise

variable {H A : Type} {f : A → A → A} {e : A}

lemma heapwise_assoc (h : Std.Associative f) : Std.Associative (heapwise (H := H) f) where
  assoc := fun p q r => funext fun g => h.assoc (p g) (q g) (r g)

lemma heapwise_ident (h : Std.LawfulIdentity f e) :
    Std.LawfulIdentity (heapwise (H := H) f) fun _ => e where
  left_id := fun p => funext fun g => h.left_id (p g)
  right_id := fun p => funext fun g => h.right_id (p g)

lemma heapwise_comm (h : Std.Commutative f) : Std.Commutative (heapwise (H := H) f) where
  comm := fun p q => funext fun g => h.comm (p g) (q g)

lemma heapwise_idem (h : Std.IdempotentOp f) : Std.IdempotentOp (heapwise (H := H) f) where
  idempotent := fun p => funext fun g => h.idempotent (p g)

end Heapwise

section Models

variable [DecidableEq α] {I : AciInterp α} {k : AciKind} {cs : List (AciNode α)} {T : AciType}
  {nt : AciLeaf α}

open AciNode

/-- The operators that are not idempotent keep their operands, and separating conjunction has no
operand `true`. -/
def KeepsOperands : AciNode α → Prop
  | .leaf _ => True
  | .app k cs =>
    match k with
    | .finiteFieldAdd | .finiteFieldMult =>
      ∀ nt, (app k cs).typeOf.bind (getNullTerminator k) = some nt → (operandsList k nt cs).Nodup
    | .sepStar =>
      (rawOperandsList k cs).Nodup ∧ .leaf (.constBoolean true) ∉ rawOperandsList k cs
    | _ => True

variable {f : T.Dom I.U → T.Dom I.U → T.Dom I.U}

lemma fits_heapwise (hk : k ≠ .bitvectorConcat) (hT : AciType.admits k T = true)
    {e : T.Dom I.U} (hop : kindOp I k T = heapwise f)
    (assoc : Std.Associative f) (ident : Std.LawfulIdentity f e)
    (hcomm : (isAssocComm k || isAssocCommIdem k) = true → Std.Commutative f)
    (hidem : isAssocCommIdem k = true → Std.IdempotentOp f ∨ (operandsList k nt cs).Nodup)
    (htype : nt.typeOf = some T) (hnt : nt.value I T = fun _ => e) :
    ∃ L : KindModel I k (· = T), L.Fits nt cs := by
  refine ⟨homModel I hk hT (hop ▸ heapwise_assoc assoc) (hop ▸ heapwise_ident ident),
    ⟨⟨T, htype, rfl⟩, fun _ => hnt, ?_, ?_⟩⟩
  · intro hac
    change Std.Commutative (kindOp I k T)
    rw [hop]
    exact heapwise_comm (hcomm hac)
  intro haci
  refine (hidem haci).imp_left fun h => ?_
  change Std.IdempotentOp (kindOp I k T)
  rw [hop]
  exact heapwise_idem h

lemma fits_sepStar (hnodup : (rawOperandsList .sepStar cs).Nodup)
    (htrue : .leaf (.constBoolean true) ∉ rawOperandsList .sepStar cs) :
    ∃ L : KindModel I .sepStar (· = .base .bool), L.Fits (.constBoolean true) cs :=
  ⟨homModel I (by decide) rfl sepConj_assoc sepConj_ident,
    ⟨⟨_, rfl, rfl⟩, fun h => absurd h htrue, fun _ => sepConj_comm,
      fun _ => .inr (hnodup.filter _)⟩⟩

/-- At a typed application where nothing is dropped wrongly, the operator fits the checker. -/
lemma exists_fits (I : AciInterp α) (h : (app k cs).typeOf = some T)
    (hnt : getNullTerminator k T = some nt) (hkeep : KeepsOperands (app k cs)) :
    ∃ (fam : AciType → Prop) (L : KindModel I k fam), fam T ∧ L.Fits nt cs := by
  obtain ⟨Ts, hTs, hof⟩ := typeOf_app_inv h
  by_cases hk : k = .bitvectorConcat
  · subst hk
    obtain ⟨-, w, -, rfl⟩ := ofArgs_concat.1 hof
    cases hnt
    refine ⟨_, concatModel I, ⟨w, rfl⟩, ⟨⟨_, rfl, 0, rfl⟩, fun _ => rfl, ?_, ?_⟩⟩
    · intro hac
      cases hac
    · intro haci
      cases haci
  have hadmits := ((ofArgs_eq_some hk).1 hof).2
  suffices hL : ∃ L : KindModel I k (· = T), L.Fits nt cs by
    obtain ⟨L, hL⟩ := hL
    exact ⟨_, L, rfl, hL⟩
  match k, T, hadmits, hnt, hkeep with
  | .or, .base .bool, hT, hnt, _ =>
    cases hnt
    exact fits_heapwise hk hT rfl ⟨Bool.or_assoc⟩
      { left_id := Bool.false_or, right_id := Bool.or_false } (fun _ => ⟨Bool.or_comm⟩)
      (fun _ => .inl ⟨Bool.or_self⟩) rfl rfl
  | .and, .base .bool, hT, hnt, _ =>
    cases hnt
    exact fits_heapwise hk hT rfl ⟨Bool.and_assoc⟩
      { left_id := Bool.true_and, right_id := Bool.and_true } (fun _ => ⟨Bool.and_comm⟩)
      (fun _ => .inl ⟨Bool.and_self⟩) rfl rfl
  | .sepStar, .base .bool, hT, hnt, hkeep =>
    cases hnt
    exact fits_sepStar hkeep.1 hkeep.2
  | .regexpUnion, .base .reglan, hT, hnt, _ =>
    cases hnt
    exact fits_heapwise hk hT rfl ⟨fun L K N : RegLan => add_assoc L K N⟩
      { left_id := fun L : RegLan => zero_add L, right_id := fun L : RegLan => add_zero L }
      (fun _ => ⟨fun L K : RegLan => add_comm L K⟩)
      (fun _ => .inl ⟨fun L : RegLan => Set.union_self L⟩) rfl rfl
  | .regexpInter, .base .reglan, hT, hnt, _ =>
    cases hnt
    exact fits_heapwise hk hT rfl ⟨fun L K N : RegLan => inf_assoc L K N⟩
      { left_id := fun L : RegLan => top_inf_eq L, right_id := fun L : RegLan => inf_top_eq L }
      (fun _ => ⟨fun L K : RegLan => inf_comm L K⟩)
      (fun _ => .inl ⟨fun L : RegLan => inf_idem L⟩) rfl rfl
  | .regexpConcat, .base .reglan, hT, hnt, _ =>
    cases hnt
    exact fits_heapwise hk hT rfl ⟨fun L K N : RegLan => mul_assoc L K N⟩
      { left_id := fun L : RegLan => one_mul L, right_id := fun L : RegLan => mul_one L }
      (fun hac => by cases hac) (fun haci => by cases haci) rfl rfl
  | .bitvectorAnd, .base (.bitvec w), hT, hnt, _ =>
    cases hnt
    exact fits_heapwise hk hT rfl ⟨and_assoc⟩
      { left_id := fun x => allOnes_and, right_id := fun x => and_allOnes }
      (fun _ => ⟨BitVec.and_comm⟩) (fun _ => .inl ⟨fun x => BitVec.and_self⟩) rfl
      (funext fun _ => setWidth_eq _)
  | .bitvectorOr, .base (.bitvec w), hT, hnt, _ =>
    cases hnt
    exact fits_heapwise hk hT rfl ⟨BitVec.or_assoc⟩
      { left_id := fun x => zero_or, right_id := fun x => or_zero }
      (fun _ => ⟨BitVec.or_comm⟩) (fun _ => .inl ⟨fun x => BitVec.or_self⟩) rfl
      (funext fun _ => setWidth_eq _)
  | .bitvectorXor, .base (.bitvec w), hT, hnt, _ =>
    cases hnt
    exact fits_heapwise hk hT rfl ⟨BitVec.xor_assoc⟩
      { left_id := fun x => BitVec.zero_xor, right_id := fun x => BitVec.xor_zero }
      (fun _ => ⟨BitVec.xor_comm⟩) (fun haci => by cases haci) rfl
      (funext fun _ => setWidth_eq _)
  | .stringConcat, .base (.seq S), hT, hnt, _ =>
    cases hnt
    exact fits_heapwise hk hT rfl ⟨List.append_assoc⟩
      { left_id := nil_append, right_id := append_nil }
      (fun hac => by cases hac) (fun haci => by cases haci) rfl rfl
  | .finiteFieldAdd, .finiteField n, hT, hnt, hkeep =>
    cases hnt
    exact fits_heapwise hk hT rfl ⟨fun x y z : ZMod n => add_assoc x y z⟩
      { left_id := fun x : ZMod n => zero_add x, right_id := fun x : ZMod n => add_zero x }
      (fun _ => ⟨fun x y : ZMod n => add_comm x y⟩)
      (fun _ => .inr (hkeep _ (by rw [h]; rfl))) rfl (funext fun _ => ZMod.cast_id n 0)
  | .finiteFieldMult, .finiteField n, hT, hnt, hkeep =>
    cases hnt
    exact fits_heapwise hk hT rfl ⟨fun x y z : ZMod n => mul_assoc x y z⟩
      { left_id := fun x : ZMod n => one_mul x, right_id := fun x : ZMod n => mul_one x }
      (fun _ => ⟨fun x y : ZMod n => mul_comm x y⟩)
      (fun _ => .inr (hkeep _ (by rw [h]; rfl))) rfl (funext fun _ => ZMod.cast_id n 1)

omit [DecidableEq α] in
lemma getNullTerminator_isSome (h : (app k cs).typeOf = some T) :
    ∃ nt : AciLeaf α, getNullTerminator k T = some nt := by
  obtain ⟨Ts, hTs, hof⟩ := typeOf_app_inv h
  by_cases hk : k = .bitvectorConcat
  · subst hk
    exact ⟨_, rfl⟩
  have hadmits := ((ofArgs_eq_some hk).1 hof).2
  match k, T, hadmits with
  | .or, .base .bool, _ => exact ⟨_, rfl⟩
  | .and, .base .bool, _ => exact ⟨_, rfl⟩
  | .sepStar, .base .bool, _ => exact ⟨_, rfl⟩
  | .regexpUnion, .base .reglan, _ => exact ⟨_, rfl⟩
  | .regexpInter, .base .reglan, _ => exact ⟨_, rfl⟩
  | .regexpConcat, .base .reglan, _ => exact ⟨_, rfl⟩
  | .bitvectorAnd, .base (.bitvec w), _ => exact ⟨_, rfl⟩
  | .bitvectorOr, .base (.bitvec w), _ => exact ⟨_, rfl⟩
  | .bitvectorXor, .base (.bitvec w), _ => exact ⟨_, rfl⟩
  | .stringConcat, .base (.seq S), _ => exact ⟨_, rfl⟩
  | .finiteFieldAdd, .finiteField n, _ => exact ⟨_, rfl⟩
  | .finiteFieldMult, .finiteField n, _ => exact ⟨_, rfl⟩

lemma isAssoc_all (k : AciKind) : (!(isAssocComm k || isAssocCommIdem k) && !isAssoc k) = false := by
  cases k <;> rfl

lemma computeACINormalForm_app (le : AciNode α → AciNode α → Bool)
    (h : (app k cs).typeOf = some T) (hnt : getNullTerminator k T = some nt) :
    computeACINormalForm le (app k cs) = ofChildren k nt (normalChildren le k nt cs) := by
  rw [computeACINormalForm]
  simp only [isAssoc_all, Bool.false_eq_true, if_false, h, bind_some, hnt]
  rfl

lemma value_computeACINormalForm (le : AciNode α → AciNode α → Bool) {a : AciNode α}
    (h : a.typeOf = some T) (hkeep : KeepsOperands a) (I : AciInterp α) :
    a.value I T = (computeACINormalForm le a).value I T := by
  cases a with
  | leaf l => rfl
  | app k cs =>
    obtain ⟨nt, hnt⟩ := getNullTerminator_isSome h
    obtain ⟨fam, L, hfam, hL⟩ := exists_fits I h hnt hkeep
    rw [computeACINormalForm_app le h hnt]
    exact value_ofChildren hL le h hfam

/-! ## Absorption -/

mutual

/-- Is the zero element an operand? -/
def absorbs (k : AciKind) (zero : Option (AciLeaf α)) : AciNode α → Bool
  | .leaf _ => false
  | .app k' cs => decide (k' = k) && absorbsAny k zero cs

def absorbsAny (k : AciKind) (zero : Option (AciLeaf α)) : List (AciNode α) → Bool
  | [] => false
  | c :: cs => (decide (zero.map .leaf = some c) || absorbs k zero c) || absorbsAny k zero cs

end

lemma absorbsAny_eq (k : AciKind) (zero : Option (AciLeaf α)) (cs : List (AciNode α)) :
    absorbsAny k zero cs =
      cs.any fun c => decide (zero.map .leaf = some c) || absorbs k zero c := by
  induction cs with
  | nil => rfl
  | cons c cs ih => rw [absorbsAny, ih, List.any_cons]

/-- The element absorbs the other operands. -/
structure KindModel.Absorbing {fam : AciType → Prop} (L : KindModel I k fam) (zero : AciLeaf α) :
    Prop where
  typed : ∃ T, (leaf zero).typeOf = some T ∧ fam T
  left : ∀ m, L.op (L.read (leaf zero)) m = L.read (leaf zero)
  right : ∀ m, L.op m (L.read (leaf zero)) = L.read (leaf zero)

variable {zero : AciLeaf α}

lemma read_of_absorbs {fam : AciType → Prop} {L : KindModel I k fam}
    (hL : L.Absorbing zero) (n : AciNode α) :
    ∀ {T : AciType}, n.typeOf = some T → fam T → absorbs k (some zero) n = true →
      L.read n = L.read (leaf zero) := by
  induction n with
  | leaf l =>
    intro T _ _ h
    cases h
  | app k' cs ih =>
    intro T htype hT h
    rw [absorbs, Bool.and_eq_true, decide_eq_true_eq] at h
    obtain ⟨rfl, h⟩ := h
    -- the combined reading of a list with a zero element
    have hlist : ∀ l : List (AciNode α), (∀ c ∈ l, c ∈ cs) → absorbsAny k' (some zero) l = true →
        L.combine l = some (L.read (leaf zero)) := by
      intro l hl hany
      induction l with
      | nil => cases hany
      | cons c l ihl =>
        obtain ⟨hc, hl⟩ := forall_mem_cons.1 hl
        obtain ⟨m, hm⟩ := L.combine_isSome l
        obtain ⟨S, hS, hfam⟩ := (L.typed htype hT).2 c hc
        rw [absorbsAny, Bool.or_eq_true, Bool.or_eq_true, decide_eq_true_eq] at hany
        rw [L.combine_cons hm]
        rcases hany with (heq | habs) | hany
        · rw [← some.inj heq, hL.left]
        · rw [ih c hc hS hfam habs, hL.left]
        · rw [ihl hl hany] at hm
          rw [← some.inj hm, hL.right]
    exact some.inj ((L.combine_app htype hT).symm.trans (hlist cs (fun _ h => h) h))

omit [DecidableEq α] in
lemma absorbing_heapwise (hk : k ≠ .bitvectorConcat)
    (hT : AciType.admits k T = true) {e z : T.Dom I.U}
    (hop : kindOp I k T = heapwise f) (assoc : Std.Associative f) (ident : Std.LawfulIdentity f e)
    (hleft : ∀ x, f z x = z) (hright : ∀ x, f x z = z) (htype : zero.typeOf = some T)
    (hz : zero.value I T = fun _ => z) : ∃ L : KindModel I k (· = T), L.Absorbing zero := by
  refine ⟨homModel I hk hT (hop ▸ heapwise_assoc assoc) (hop ▸ heapwise_ident ident),
    ⟨⟨T, htype, rfl⟩, ?_, ?_⟩⟩
  · intro m
    change kindOp I k T (zero.value I T) m = zero.value I T
    rw [hop, hz]
    exact funext fun h => hleft (m h)
  intro m
  change kindOp I k T m (zero.value I T) = zero.value I T
  rw [hop, hz]
  exact funext fun h => hright (m h)

omit [DecidableEq α] in
lemma exists_absorbing (I : AciInterp α) (h : (app k cs).typeOf = some T)
    (hk : isAbsorbKind k = true) (hzero : getZeroElement k T = some zero) :
    ∃ L : KindModel I k (· = T), L.Absorbing zero := by
  obtain ⟨Ts, hTs, hof⟩ := typeOf_app_inv h
  have hne : k ≠ .bitvectorConcat := by
    rintro rfl
    cases hk
  have hadmits := ((ofArgs_eq_some hne).1 hof).2
  match k, T, hadmits, hk, hzero with
  | .or, .base .bool, hT, _, hzero =>
    cases hzero
    exact absorbing_heapwise hne hT rfl ⟨Bool.or_assoc⟩
      { left_id := Bool.false_or, right_id := Bool.or_false } Bool.true_or Bool.or_true rfl rfl
  | .and, .base .bool, hT, _, hzero =>
    cases hzero
    exact absorbing_heapwise hne hT rfl ⟨Bool.and_assoc⟩
      { left_id := Bool.true_and, right_id := Bool.and_true } Bool.false_and Bool.and_false rfl
      rfl
  | .regexpUnion, .base .reglan, hT, _, hzero =>
    cases hzero
    exact absorbing_heapwise hne hT rfl ⟨fun L K N : RegLan => add_assoc L K N⟩
      { left_id := fun L : RegLan => zero_add L, right_id := fun L : RegLan => add_zero L }
      (fun L : RegLan => Set.univ_union L) (fun L : RegLan => Set.union_univ L) rfl rfl
  | .regexpInter, .base .reglan, hT, _, hzero =>
    cases hzero
    exact absorbing_heapwise hne hT rfl ⟨fun L K N : RegLan => inf_assoc L K N⟩
      { left_id := fun L : RegLan => top_inf_eq L, right_id := fun L : RegLan => inf_top_eq L }
      (fun L : RegLan => Set.empty_inter L) (fun L : RegLan => Set.inter_empty L) rfl rfl
  | .regexpConcat, .base .reglan, hT, _, hzero =>
    cases hzero
    exact absorbing_heapwise hne hT rfl ⟨fun L K N : RegLan => mul_assoc L K N⟩
      { left_id := fun L : RegLan => one_mul L, right_id := fun L : RegLan => mul_one L }
      (fun L : RegLan => zero_mul L) (fun L : RegLan => mul_zero L) rfl rfl
  | .bitvectorAnd, .base (.bitvec w), hT, _, hzero =>
    cases hzero
    exact absorbing_heapwise hne hT rfl ⟨and_assoc⟩
      { left_id := fun x => allOnes_and, right_id := fun x => and_allOnes }
      (fun x => BitVec.zero_and) (fun x => BitVec.and_zero) rfl
      (funext fun _ => setWidth_eq _)
  | .bitvectorOr, .base (.bitvec w), hT, _, hzero =>
    cases hzero
    exact absorbing_heapwise hne hT rfl ⟨BitVec.or_assoc⟩
      { left_id := fun x => zero_or, right_id := fun x => or_zero }
      (fun x => BitVec.allOnes_or) (fun x => BitVec.or_allOnes) rfl
      (funext fun _ => setWidth_eq _)

/-! ## Attributes -/

/-- The flags of typed nodes are what a new traversal computes. -/
def FlagsOk (flags : AciNode α → Option Bool) : Prop :=
  ∀ k cs T f, flags (app k cs) = some f → (app k cs).typeOf = some T →
    f = absorbs k (getZeroElement k T) (app k cs)

/-- The flags after a traversal, on which the flags before are kept. -/
structure AbsorbVisited (k : AciKind) (ns : List (AciNode α)) (flags flags' : AciNode α → Option Bool) :
    Prop where
  ok : FlagsOk flags'
  kept : ∀ n f, flags n = some f → flags' n = some f
  computed : ∀ cs, app k cs ∈ ns → (flags' (app k cs)).isSome

omit [DecidableEq α] in
lemma typeOf_child (hk : isAbsorbKind k = true) (h : (app k cs).typeOf = some T) :
    ∀ c ∈ cs, c.typeOf = some T := by
  obtain ⟨Ts, hTs, hof⟩ := typeOf_app_inv h
  have hne : k ≠ .bitvectorConcat := by
    rintro rfl
    cases hk
  have hall := (common_eq_some.1 ((ofArgs_eq_some hne).1 hof).1).2
  intro c hc
  obtain ⟨T', hmem, hT'⟩ := typeOf_of_mem hTs c hc
  rw [hT', hall T' hmem]

lemma flag_eq_absorbs {flags : AciNode α → Option Bool} (hok : FlagsOk flags) {c : AciNode α}
    (hc : c.typeOf = some T) (hset : ∀ cs, c = app k cs → (flags c).isSome) :
    (decide (c.kind? = some k) && decide (flags c = some true)) =
      absorbs k (getZeroElement k T) c := by
  cases c with
  | leaf l => rfl
  | app k' cs =>
    by_cases hk : k' = k
    · subst hk
      obtain ⟨f, hf⟩ := Option.isSome_iff_exists.1 (hset cs rfl)
      rw [← hok k' cs T f hf hc, hf]
      cases f <;> simp [kind?]
    · rw [absorbs, decide_eq_false hk]
      simp [kind?, hk]

lemma absorbVisit_spec (hk : isAbsorbKind k = true) (n : AciNode α) :
    ∀ {flags : AciNode α → Option Bool}, n.typeOf = some T → FlagsOk flags →
      AbsorbVisited k [n] flags (absorbVisit k (getZeroElement k T) n flags) := by
  induction n with
  | leaf l =>
    intro flags h hok
    exact ⟨hok, fun _ _ h => h, by simp⟩
  | app k' cs ih =>
    intro flags h hok
    rw [absorbVisit]
    split
    · rename_i hcase
      refine ⟨hok, fun _ _ h => h, ?_⟩
      intro cs' hmem
      cases List.mem_singleton.1 hmem
      exact hcase.resolve_left (by simp)
    rename_i hcase
    obtain ⟨hkk, hunset⟩ := not_or.1 hcase
    obtain rfl : k' = k := not_not.1 hkk
    have htyped := typeOf_child hk h
    -- the children
    have hlist : ∀ l : List (AciNode α), (∀ c ∈ l, c ∈ cs) →
        AbsorbVisited k' l flags (absorbVisits k' (getZeroElement k' T) l flags) := by
      intro l hl
      induction l with
      | nil => exact ⟨hok, fun _ _ h => h, by simp⟩
      | cons c l ihl =>
        obtain ⟨hc, hl⟩ := forall_mem_cons.1 hl
        have hrest := ihl hl
        have hvisit := ih c hc (htyped c hc) hrest.ok
        rw [absorbVisits]
        refine ⟨hvisit.ok, fun m f hm => hvisit.kept m f (hrest.kept m f hm), ?_⟩
        intro cs' hmem
        rcases List.mem_cons.1 hmem with heq | hmem
        · exact hvisit.computed cs' (by rw [heq]; simp)
        obtain ⟨f, hf⟩ := Option.isSome_iff_exists.1 (hrest.computed cs' hmem)
        rw [hvisit.kept _ f hf]
        rfl
    have hvis := hlist cs fun _ h => h
    have hannil : (cs.any fun cc => decide ((getZeroElement k' T).map .leaf = some cc) ||
        (decide (cc.kind? = some k') &&
          decide (absorbVisits k' (getZeroElement k' T) cs flags cc = some true))) =
        absorbs k' (getZeroElement k' T) (app k' cs) := by
      rw [absorbs, decide_eq_true rfl, Bool.true_and, absorbsAny_eq]
      rw [Bool.eq_iff_iff, List.any_eq_true, List.any_eq_true]
      refine exists_congr fun c => and_congr_right fun hc => ?_
      rw [flag_eq_absorbs hvis.ok (htyped c hc) fun cs' heq => by
        rw [heq] at hc ⊢
        exact hvis.computed cs' hc]
    have hne : ∀ n f, flags n = some f → n ≠ app k' cs := by
      rintro n f hn rfl
      rw [hn] at hunset
      exact hunset rfl
    dsimp only
    rw [hannil]
    refine ⟨?_, ?_, ?_⟩
    · intro k'' cs'' T'' f hf hT''
      by_cases heq : app k'' cs'' = app k' cs
      · rw [heq, update_self] at hf
        cases heq
        cases hT''.symm.trans h
        exact (some.inj hf).symm
      · rw [update_of_ne heq] at hf
        exact hvis.ok k'' cs'' T'' f hf hT''
    · intro n f hn
      rw [update_of_ne (hne n f hn)]
      exact hvis.kept n f hn
    · intro cs' hmem
      rw [List.mem_singleton.1 hmem, update_self]
      rfl

/-- The attributes are what the functions compute. -/
structure Attributes.Ok (le : AciNode α → AciNode α → Bool) (s : Attributes α) : Prop where
  normalForm : ∀ a an, s.normalForm a = some an → an = computeACINormalForm le a
  absorb : FlagsOk s.absorb

variable {le : AciNode α → AciNode α → Bool} {s : Attributes α}

lemma getACINormalForm_spec (hs : s.Ok le) (a : AciNode α) :
    (getACINormalForm le s a).1 = computeACINormalForm le a ∧ (getACINormalForm le s a).2.Ok le := by
  rw [getACINormalForm]
  cases hcached : s.normalForm a with
  | some an => exact ⟨hs.normalForm a an hcached, hs⟩
  | none =>
    refine ⟨rfl, ?_, hs.absorb⟩
    intro b bn hb
    change Function.update s.normalForm a (some (computeACINormalForm le a)) b = some bn at hb
    by_cases hba : b = a
    · rw [hba, update_self] at hb
      rw [hba, ← some.inj hb]
    · rw [update_of_ne hba] at hb
      exact hs.normalForm b bn hb

lemma isACINorm_spec (hs : s.Ok le) (a b : AciNode α) : ((isACINorm le s a b).1 = true ↔
      if a.kind? = b.kind? ∧ a.kind?.isSome then
        computeACINormalForm le a = computeACINormalForm le b
      else a = b ∨ computeACINormalForm le a = b) ∧ (isACINorm le s a b).2.Ok le := by
  obtain ⟨han, hs'⟩ := getACINormalForm_spec hs a
  obtain ⟨hbn, hs''⟩ := getACINormalForm_spec hs' b
  refine ⟨?_, hs''⟩
  rw [isACINorm]
  simp only [han, hbn]
  split
  · exact decide_eq_true_iff
  · exact decide_eq_true_iff

lemma isAbsorb_spec (hs : s.Ok le) {a : AciNode α} (ha : a.typeOf = some T) :
    ((isAbsorb s a (zeroOf a)).1 = true → ∃ k cs, a = app k cs ∧ isAbsorbKind k = true ∧
        absorbs k (getZeroElement k T) a = true) ∧
      (isAbsorb s a (zeroOf a)).2.Ok le := by
  cases a with
  | leaf l =>
    refine ⟨?_, hs⟩
    intro h
    cases h
  | app k cs =>
    have hzero : zeroOf (app k cs) = getZeroElement k T := by
      rw [zeroOf, ha]
      rfl
    rw [hzero, isAbsorb]
    simp only [kind?]
    split
    swap
    · refine ⟨?_, hs⟩
      intro h
      cases h
    rename_i hk
    have hvis := absorbVisit_spec hk (app k cs) ha hs.absorb
    refine ⟨fun h => ⟨k, cs, rfl, hk, ?_⟩, hs.normalForm, hvis.ok⟩
    have hflag := of_decide_eq_true h
    exact (hvis.ok k cs T true hflag ha).symm

lemma Reachable.ok (hs : Reachable le s) : s.Ok le := by
  induction hs with
  | empty =>
    refine ⟨?_, ?_⟩
    · intro a an h
      cases h
    · intro k cs T f h
      cases h
  | isACINorm _ _ _ ih => exact (isACINorm_spec ih _ _).2
  | isAbsorb _ ha ih => exact (isAbsorb_spec ih ha).2

/-! ## The checkers -/

end Models

/-- A proposition. -/
abbrev boolLeaf : AciNode Nat := .leaf (.other (.base .bool) 0)

/-- An element of the field with three elements. -/
abbrev fieldLeaf : AciNode Nat := .leaf (.other (.finiteField 3) 0)

/-- In every field the variables are one. -/
noncomputable def oneInterp : AciInterp Nat where
  U := fun _ => Unit
  Loc := Unit
  Data := Unit
  other := fun T _ _ =>
    match T with
    | .base T => Classical.choice (dom_nonempty (fun _ => ⟨()⟩) T)
    | .finiteField n => (1 : ZMod n)
  default := fun T =>
    match T with
    | .base T => Classical.choice (dom_nonempty (fun _ => ⟨()⟩) T)
    | .finiteField n => (0 : ZMod n)

end EthosCpc.Cvc5
