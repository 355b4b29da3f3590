import EthosCpc.Library.ListReading
import EthosCpc.Cpc.Strings
import EthosCpc.Cpc.ReEvalSpec

/-!
# What the list forms denote

A term in list form is read from the front or, after a reversal, from the
back: `StrReads` and `ReReads` say what a list denotes when its elements are
concatenated in the one or the other order.  The conversions to a list form
keep what is read, in the direction that they ask for.
-/

namespace EthosCpc

open Term (bop uop)
open Library Computability
open Option (some.inj)

/-! ## Reading a list term -/

lemma isBop_inv {f : Sym} {t : Term} (h : t.isBop f = true) : ∃ a b, t = bop f a b := by
  unfold Term.isBop at h
  split at h
  · rename_i s a b
    exact ⟨a, b, of_decide_eq_true h ▸ rfl⟩
  · cases h

lemma listInduction (f : Sym) {P : Term → Prop} (base : ∀ t, t.isBop f = false → P t)
    (step : ∀ a b, P b → P (bop f a b)) (t : Term) : P t := by
  induction t with
  | app g b _ ihb =>
    cases hf : (Term.app g b).isBop f with
    | true =>
      obtain ⟨a, b', heq⟩ := isBop_inv hf
      cases heq
      exact step a b ihb
    | false => exact base _ hf
  | _ => exact base _ rfl

section TermReads

variable {M : Type*}

/-- What an operator denotes that is applied to a list, the elements read by `R`. -/
def TermReads (f : Sym) (R : Term → M → Prop) (op : M → M → M) : Term → M → Prop
  | .app (.app (.sym g) a) b, m =>
    if g = f then ∃ x y, R a x ∧ TermReads f R op b y ∧ m = op x y else R (bop g a b) m
  | t, m => R t m

variable {f : Sym} {R : Term → M → Prop} {op : M → M → M} {a b t : Term} {m : M}

lemma termReads_bop :
    TermReads f R op (bop f a b) m ↔ ∃ x y, R a x ∧ TermReads f R op b y ∧ m = op x y := by
  rw [TermReads, if_pos rfl]

lemma termReads_of_not_isBop (h : t.isBop f = false) : TermReads f R op t m ↔ R t m := by
  unfold TermReads
  split
  · rename_i g a b m
    rw [if_neg (of_decide_eq_false h)]
  · exact Iff.rfl

lemma termReads_iff (h : ∀ a b m, R (bop f a b) m ↔ ∃ x y, R a x ∧ R b y ∧ m = op x y) :
    TermReads f R op t m ↔ R t m := by
  induction t using listInduction f generalizing m with
  | base t ht => exact termReads_of_not_isBop ht
  | step a b ih =>
    rw [termReads_bop, h]
    simp only [ih]

lemma termReads_prepend {nil : Term} {e : M} (hnil : nil.isBop f = false)
    (he : ∀ m, R nil m ↔ m = e) {xs : List Term} :
    TermReads f R op (prependNAryChildren (.sym f) nil xs) m ↔ ReadsList R op e xs m := by
  induction xs generalizing m with
  | nil =>
    rw [prependNAryChildren_nil, termReads_of_not_isBop hnil, he]
    exact Iff.rfl
  | cons x xs ih =>
    rw [prependNAryChildren_cons, termReads_bop, readsList_cons]
    simp only [ih]

end TermReads

variable {Γ : Nat → Ty} {I : Interp Γ} {T : Ty} {t u nil : Term} {rev : Bool}

/-! ## Sequences -/

def seqNil : Ty → Term
  | .char => .str []
  | T => .sym (.seqEmpty T)

lemma seqEmpty_seq (T : Ty) : seqEmpty (.seq T) = some (seqNil T) := by
  cases T <;> rfl

lemma seqVal_seqNil {l : List (Dom I.U T)} : SeqVal I T (seqNil T) l ↔ l = [] := by
  have hnil : SeqVal I T (seqNil T) [] := by
    cases T <;> rfl
  constructor
  · intro h
    exact h.unique hnil
  · rintro rfl
    exact hnil

lemma seqNil_not_isBop (f : Sym) : (seqNil T).isBop f = false := by
  cases T <;> rfl

variable {l : List (Dom I.U T)}

lemma seqEmpty_typeof (ht : SeqVal I T t l) (h : (typeof Γ t).bind seqEmpty = some nil) :
    nil = seqNil T := by
  obtain ⟨S, hS, h⟩ := bind_inv h
  obtain ⟨v, hv⟩ := value_of_typeof I hS
  have hST : S = .seq T := congrArg Sigma.fst (some.inj (hv.symm.trans ht))
  rw [hST, seqEmpty_seq] at h
  exact (some.inj h).symm

lemma seqVal_strSelfIfEmpty (ht : SeqVal I T t l) (h : strSelfIfEmpty Γ t = some u) :
    SeqVal I T u l := by
  obtain ⟨nil, _, h⟩ := bind_inv h
  split at h
  · cases h
    exact ht
  · cases h

lemma strSelfIfEmpty_inv (ht : SeqVal I T t l) (h : strSelfIfEmpty Γ t = some u) :
    t = seqNil T ∧ u = seqNil T := by
  obtain ⟨nil, hnil, h⟩ := bind_inv h
  have hseq := seqEmpty_typeof ht hnil
  split at h
  · rename_i heq
    cases h
    exact ⟨heq.trans hseq, heq.trans hseq⟩
  · cases h

/-- What a sequence in list form denotes, read from the front or from the back. -/
def StrReads (I : Interp Γ) (T : Ty) (rev : Bool) : Term → List (Dom I.U T) → Prop :=
  TermReads .strConcat (SeqVal I T) (dirOp (· ++ ·) rev)

lemma strReads_bop {a b : Term} : StrReads I T rev (bop .strConcat a b) l ↔
      ∃ x y, SeqVal I T a x ∧ StrReads I T rev b y ∧ l = dirOp (· ++ ·) rev x y :=
  termReads_bop

@[simp] lemma strReads_false : StrReads I T false t l ↔ SeqVal I T t l :=
  termReads_iff fun _ _ _ => seqVal_concat

lemma strReads_seqNil : StrReads I T rev (seqNil T) l ↔ l = [] := by
  unfold StrReads
  rw [termReads_of_not_isBop (seqNil_not_isBop _), seqVal_seqNil]

lemma strReads_prepend {xs : List Term} :
    StrReads I T rev (prependNAryChildren (.sym .strConcat) (seqNil T) xs) l ↔
      ReadsList (SeqVal I T) (dirOp (· ++ ·) rev) [] xs l :=
  termReads_prepend (seqNil_not_isBop _) fun _ => seqVal_seqNil

lemma exists_seqVal_of_strReads (h : StrReads I T rev t l) : ∃ x, SeqVal I T t x := by
  induction t using listInduction .strConcat generalizing l with
  | base t ht => exact ⟨l, (termReads_of_not_isBop ht).1 h⟩
  | step a b ih =>
    obtain ⟨x, y, ha, hb, _⟩ := strReads_bop.1 h
    obtain ⟨z, hz⟩ := ih hb
    exact ⟨x ++ z, seqVal_concat.2 ⟨x, z, ha, hz, rfl⟩⟩

lemma naryView_seqNil (T : Ty) : naryView (.sym .strConcat) (seqNil T) = ([], seqNil T) := by
  cases T <;> rfl

lemma strReads_strListRev {r : Bool} (ht : StrReads I T r t l)
    (h : strListRev Γ t = some u) : StrReads I T (!r) u l := by
  obtain ⟨nil, hnil, h⟩ := bind_inv h
  obtain ⟨x, hx⟩ := exists_seqVal_of_strReads ht
  obtain rfl := seqEmpty_typeof hx hnil
  obtain ⟨xs, hxs, rfl⟩ := eoListRev_spec h
  rw [eq_of_getNAryChildren hxs, strReads_prepend] at ht
  rw [strReads_prepend, ← dirOp_not]
  refine (readsList_reverse ?_ ?_ ?_).2 ht
  · cases r
    · exact List.append_assoc
    · exact fun a b c => (List.append_assoc c b a).symm
  · cases r
    · exact List.nil_append
    · exact List.append_nil
  cases r
  · exact List.append_nil
  · exact List.nil_append

lemma strReads_strRev (ht : SeqVal I T t l) (h : strRev Γ rev t = some u) :
    StrReads I T rev u l := by
  cases rev with
  | false =>
    cases h
    exact strReads_false.2 ht
  | true => exact strReads_strListRev (strReads_false.2 ht) h

lemma seqVal_strRev (ht : StrReads I T rev t l) (h : strRev Γ rev t = some u) : SeqVal I T u l := by
  cases rev with
  | false =>
    cases h
    exact strReads_false.1 ht
  | true => exact strReads_false.1 (strReads_strListRev ht h)

/-! ## Flat form -/

lemma seqVal_strNaryIntro (ht : SeqVal I T t l) (h : strNaryIntro Γ t = some u) :
    SeqVal I T u l := by
  unfold strNaryIntro at h
  split at h
  · cases h
    exact ht
  obtain ⟨nil, hnil, rfl⟩ := map_inv h
  obtain rfl := seqEmpty_typeof ht hnil
  split
  · exact ht
  · exact seqVal_concat.2 ⟨l, [], ht, seqVal_seqNil.2 rfl, (List.append_nil l).symm⟩

lemma seqVal_strNaryElim (ht : SeqVal I T t l) (h : strNaryElim Γ t = some u) : SeqVal I T u l := by
  unfold strNaryElim at h
  split at h
  swap
  · exact seqVal_strSelfIfEmpty ht h
  rename_i a b
  obtain ⟨x, y, ha, hb, rfl⟩ := seqVal_concat.1 ht
  obtain ⟨nil, hnil, rfl⟩ := map_inv h
  obtain rfl := seqEmpty_typeof ha hnil
  split
  swap
  · exact ht
  rename_i hb'
  rw [hb', seqVal_seqNil] at hb
  rw [hb, List.append_nil]
  exact ha

lemma seqVal_str {s : Str} (h : SeqVal I T (.str s) l) : T = .char :=
  (Ty.seq.inj (congrArg Sigma.fst (some.inj h))).symm

lemma strVal_strFlattenWord {s : Str} : StrVal I (strFlattenWord s) s := by
  induction s with
  | nil => exact strVal_str.2 rfl
  | cons c s ih => exact strVal_concat.2 ⟨[c], s, strVal_str.2 rfl, ih, rfl⟩

/-- Sequences of one type as a list model. -/
def strModel (I : Interp Γ) (T : Ty) : ListModel I .strConcat (.seq T) (seqNil T) :=
  seqModel I (seqVal_seqNil.2 rfl) (seqEmpty_seq T)

lemma seqVal_listConcat {a b : Term} {x y : List (Dom I.U T)} (ha : SeqVal I T a x)
    (hb : SeqVal I T b y) (h : listConcat Γ .strConcat a b = some u) : SeqVal I T u (x ++ y) :=
  ListModel.read_eq_some.1 (ListModel.read_listConcat (L := strModel I T)
    (ListModel.read_eq_some.2 ha) (ListModel.read_eq_some.2 hb) h)

lemma strFlatten_of_not_isBop (h : t.isBop .strConcat = false) :
    strFlatten Γ t = strSelfIfEmpty Γ t := by
  unfold strFlatten
  split
  · contradiction
  · rfl

lemma seqVal_strFlatten (ht : SeqVal I T t l) (h : strFlatten Γ t = some u) : SeqVal I T u l := by
  induction t using listInduction .strConcat generalizing l u with
  | base t hb =>
    rw [strFlatten_of_not_isBop hb] at h
    exact seqVal_strSelfIfEmpty ht h
  | step a b ih =>
    obtain ⟨x, y, ha, hb, rfl⟩ := seqVal_concat.1 ht
    obtain ⟨v, hv, h⟩ := bind_inv h
    have hcons : SeqVal I T (bop .strConcat a v) (x ++ y) :=
      seqVal_concat.2 ⟨x, y, ha, ih hb hv, rfl⟩
    split at h
    swap
    · cases h
      exact hcons
    rename_i s
    split at h
    · obtain rfl := seqVal_str ha
      rw [strVal_str.1 ha]
      exact seqVal_listConcat strVal_strFlattenWord (ih hb hv) h
    · cases h
      exact hcons

lemma strCollectAcc_spec {w : Str} (ht : SeqVal I T t l) (h : strCollectAcc t = some (w, u)) :
    w = [] ∧ u = t ∨ w ≠ [] ∧ SeqVal I T (bop .strConcat (.str w) u) l := by
  induction t using listInduction .strConcat generalizing l w u with
  | base t hb =>
    unfold strCollectAcc at h
    split at h
    · contradiction
    · cases h
      exact .inl ⟨rfl, rfl⟩
    · contradiction
  | step a b ih =>
    obtain ⟨x, y, ha, hb, rfl⟩ := seqVal_concat.1 ht
    unfold strCollectAcc at h
    split at h
    swap
    · cases h
      exact .inl ⟨rfl, rfl⟩
    rename_i s
    split at h
    swap
    · cases h
      exact .inl ⟨rfl, rfl⟩
    rename_i hone
    obtain ⟨⟨w', u'⟩, hres, heq⟩ := map_inv h
    cases heq
    obtain rfl := seqVal_str ha
    have hs : s ≠ [] := by
      rintro rfl
      contradiction
    refine .inr ⟨fun hnil => hs (List.append_eq_nil_iff.1 hnil).1, ?_⟩
    have hx : x = s := strVal_str.1 ha
    rcases ih hb hres with ⟨rfl, rfl⟩ | ⟨-, hsplit⟩
    · rw [List.append_nil]
      exact ht
    obtain ⟨p, q, hp, hq, rfl⟩ := seqVal_concat.1 hsplit
    have hp' : p = w' := strVal_str.1 hp
    rw [hx, hp']
    exact seqVal_concat.2 ⟨(s ++ w' : Str), q, strVal_str.2 rfl, hq,
      (List.append_assoc (α := CodePoint) s w' q).symm⟩

lemma seqVal_strCollectRec {k : Nat} (ht : SeqVal I T t l)
    (h : strCollectRec Γ k t = some u) : SeqVal I T u l := by
  induction k generalizing t l u with
  | zero => contradiction
  | succ k ih =>
    unfold strCollectRec at h
    split at h
    · cases h
    · rename_i k' a b heq
      cases heq
      obtain ⟨⟨w, v⟩, hres, h⟩ := bind_inv h
      split at h
      · obtain ⟨x, y, ha, hb, rfl⟩ := seqVal_concat.1 ht
        obtain ⟨z, hz, rfl⟩ := map_inv h
        exact seqVal_concat.2 ⟨x, y, ha, ih hb hz, rfl⟩
      rename_i hne
      obtain ⟨z, hz, rfl⟩ := map_inv h
      have hsplit := ((strCollectAcc_spec ht hres).resolve_left fun hnil => hne hnil.1).2
      obtain ⟨x, y, hw, hv, rfl⟩ := seqVal_concat.1 hsplit
      exact seqVal_concat.2 ⟨x, y, hw, ih hv hz, rfl⟩
    · exact seqVal_strSelfIfEmpty ht h

lemma strReads_strToFlatForm (ht : SeqVal I T t l) (h : strToFlatForm Γ t rev = some u) :
    StrReads I T rev u l := by
  obtain ⟨v, hv, h⟩ := bind_inv h
  obtain ⟨w, hw, h⟩ := bind_inv h
  exact strReads_strRev (seqVal_strFlatten (seqVal_strNaryIntro ht hv) hw) h

lemma strReads_strToNaryForm (ht : SeqVal I T t l) (h : strToNaryForm Γ t rev = some u) :
    StrReads I T rev u l := by
  obtain ⟨v, hv, h⟩ := bind_inv h
  exact strReads_strRev (seqVal_strNaryIntro ht hv) h

lemma seqVal_strFromFlatForm (ht : StrReads I T rev t l)
    (h : strFromFlatForm Γ t rev = some u) : SeqVal I T u l := by
  obtain ⟨v, hv, h⟩ := bind_inv h
  obtain ⟨w, hw, h⟩ := bind_inv h
  exact seqVal_strNaryElim (seqVal_strCollectRec (seqVal_strRev ht hv) hw) h

lemma seqVal_strFromNaryForm (ht : StrReads I T rev t l)
    (h : strFromNaryForm Γ t rev = some u) : SeqVal I T u l := by
  obtain ⟨v, hv, h⟩ := bind_inv h
  exact seqVal_strNaryElim (seqVal_strRev ht hv) h

/-! ## Regular expressions -/

section RegularExpressions

variable {r r' : Term} {A L : RegLan} {dir : Bool}

/-- An element of a `re.++` list, with its string in the direction `rev`. -/
def ReElem (I : Interp Γ) (rev : Bool) : Term → RegLan → Prop
  | .app (.sym .strToRe) s, L => ∃ w : Str, StrReads I .char rev s w ∧ L = ({w} : Set Str)
  | r, L => ReVal I r L

lemma reElem_strToRe {s : Term} : ReElem I rev (uop .strToRe s) L ↔
      ∃ w : Str, StrReads I .char rev s w ∧ L = ({w} : Set Str) :=
  Iff.rfl

@[simp] lemma reElem_false : ReElem I false r L ↔ ReVal I r L := by
  unfold ReElem
  split
  · rw [reVal_strToRe]
    exact exists_congr fun w => and_congr_left' (strReads_false (T := .char))
  · exact Iff.rfl

lemma reElem_reEmpty : ReElem I rev reEmpty L ↔ L = 1 := by
  rw [reElem_strToRe]
  constructor
  · rintro ⟨w, hw, rfl⟩
    obtain rfl : w = [] := (strReads_seqNil (T := .char)).1 hw
    rfl
  · rintro rfl
    exact ⟨[], (strReads_seqNil (T := .char)).2 rfl, rfl⟩

/-- What a regular expression in list form denotes: the list is read from the front or from
the back as `dir` says, and the strings that are its elements as `rev` says. -/
def ReReads (I : Interp Γ) (rev dir : Bool) : Term → RegLan → Prop :=
  TermReads .reConcat (ReElem I rev) (dirOp (· * ·) dir)

lemma reReads_bop {a b : Term} : ReReads I rev dir (bop .reConcat a b) L ↔
      ∃ A B, ReElem I rev a A ∧ ReReads I rev dir b B ∧ L = dirOp (· * ·) dir A B :=
  termReads_bop

@[simp] lemma reReads_false : ReReads I false false r L ↔ ReVal I r L := by
  rw [← reElem_false]
  exact termReads_iff fun _ _ _ => by simpa using reVal_concat

lemma reReads_prepend {xs : List Term} :
    ReReads I rev dir (prependNAryChildren (.sym .reConcat) reEmpty xs) L ↔
      ReadsList (ReElem I rev) (dirOp (· * ·) dir) 1 xs L :=
  termReads_prepend rfl fun _ => reElem_reEmpty

lemma reVal_reNaryIntro (hr : ReVal I r L) : ReVal I (reNaryIntro r) L := by
  unfold reNaryIntro
  split
  · exact hr
  split
  · exact hr
  · exact reVal_concat.2 ⟨L, 1, hr, reVal_empty.2 rfl, (mul_one L).symm⟩

lemma reVal_reNaryElim (hr : ReVal I r L) : ReVal I (reNaryElim r) L := by
  unfold reNaryElim
  split
  swap
  · exact hr
  split
  swap
  · exact hr
  rename_i hempty
  obtain ⟨A, B, hA, hB, rfl⟩ := reVal_concat.1 hr
  rw [hempty, reVal_empty] at hB
  rw [hB, mul_one]
  exact hA

lemma reReads_eoListRev (hr : ReReads I rev dir r L)
    (h : eoListRev (.sym .reConcat) reEmpty r = some r') : ReReads I rev (!dir) r' L := by
  obtain ⟨xs, hxs, rfl⟩ := eoListRev_spec h
  rw [eq_of_getNAryChildren hxs, reReads_prepend] at hr
  rw [reReads_prepend, ← dirOp_not]
  refine (readsList_reverse ?_ ?_ ?_).2 hr
  · cases dir
    · exact mul_assoc
    · exact fun a b c => (mul_assoc c b a).symm
  · cases dir
    · exact one_mul
    · exact mul_one
  cases dir
  · exact mul_one
  · exact one_mul

variable {f : Term → Option Term}

lemma reStrMap_of_not_isBop (h : r.isBop .reConcat = false) : reStrMap f r = some r := by
  unfold reStrMap
  split
  · contradiction
  · rfl

lemma naryView_reStrMap (h : reStrMap f r = some r') :
    (naryView (.sym .reConcat) r').2 = (naryView (.sym .reConcat) r).2 := by
  induction r using listInduction .reConcat generalizing r' with
  | base r hb =>
    rw [reStrMap_of_not_isBop hb] at h
    cases h
    rfl
  | step a b ih =>
    unfold reStrMap at h
    split at h
    · obtain ⟨u, _, h⟩ := bind_inv h
      obtain ⟨v, hv, rfl⟩ := map_inv h
      simpa [naryView] using ih hv
    · obtain ⟨v, hv, rfl⟩ := map_inv h
      simpa [naryView] using ih hv

lemma naryView_of_getNAryChildren {f : Sym} {xs : List Term}
    (h : getNAryChildren (.sym f) nil t = some xs) : (naryView (.sym f) t).2 = nil := by
  unfold getNAryChildren at h
  split at h
  · assumption
  · cases h

lemma naryView_of_not_isBop {f : Sym} (h : t.isBop f = false) : (naryView (.sym f) t).2 = t := by
  unfold naryView
  split
  swap
  · rfl
  rename_i g a b
  split
  · rename_i hg
    rw [hg] at h
    simp [Term.isBop] at h
  · rfl

lemma reReads_reStrMap (rev rev' : Bool)
    (hf : ∀ {s u : Term} {w : Str}, StrReads I .char rev s w → f s = some u →
      StrReads I .char rev' u w)
    (hend : rev = rev' ∨ (naryView (.sym .reConcat) r).2 = reEmpty)
    (hr : ReReads I rev dir r L) (h : reStrMap f r = some r') : ReReads I rev' dir r' L := by
  induction r using listInduction .reConcat generalizing r' L with
  | base r hb =>
    rw [reStrMap_of_not_isBop hb] at h
    cases h
    rcases hend with rfl | hend
    · exact hr
    rw [naryView_of_not_isBop hb] at hend
    rw [hend] at hr ⊢
    exact reElem_reEmpty.2 (reElem_reEmpty.1 hr)
  | step a b ih =>
    have hend' : rev = rev' ∨ (naryView (.sym .reConcat) b).2 = reEmpty :=
      hend.imp_right fun hb => by simpa [naryView] using hb
    obtain ⟨A, B, hA, hB, rfl⟩ := reReads_bop.1 hr
    unfold reStrMap at h
    split at h
    · obtain ⟨u, hu, h⟩ := bind_inv h
      obtain ⟨v, hv, rfl⟩ := map_inv h
      obtain ⟨w, hw, rfl⟩ := reElem_strToRe.1 hA
      exact reReads_bop.2 ⟨_, B, reElem_strToRe.2 ⟨w, hf hw hu, rfl⟩, ih hend' hB hv, rfl⟩
    rename_i hno
    obtain ⟨v, hv, rfl⟩ := map_inv h
    refine reReads_bop.2 ⟨A, B, ?_, ih hend' hB hv, rfl⟩
    rw [ReElem] at hA ⊢
    · exact hA
    all_goals exact hno

lemma reReads_reToFlatForm (hr : ReVal I r L) (h : reToFlatForm Γ r rev = some r') :
    ReReads I rev rev r' L := by
  obtain ⟨q, hq, h⟩ := bind_inv h
  have hintro := reReads_false.2 (reVal_reNaryIntro hr)
  refine reReads_reStrMap false rev
    (fun hs hu => strReads_strToFlatForm (strReads_false.1 hs) hu) ?_ ?_ h
  · cases rev with
    | false => exact .inl rfl
    | true =>
      obtain ⟨xs, -, rfl⟩ := eoListRev_spec (show eoListRev _ _ _ = some q from hq)
      exact .inr (congrArg Prod.snd (naryView_prepend reEmpty xs.reverse) |>.trans rfl)
  cases rev with
  | false =>
    cases hq
    exact hintro
  | true => exact reReads_eoListRev hintro hq

lemma reVal_reFromFlatForm (hr : ReReads I rev rev r L)
    (h : reFromFlatForm Γ r rev = some r') : ReVal I r' L := by
  obtain ⟨p, hp, rfl⟩ := map_inv h
  obtain ⟨q, hq, hp⟩ := bind_inv hp
  have hconv : ReReads I false rev q L := by
    refine reReads_reStrMap rev false
      (fun hs hu => strReads_false.2 (seqVal_strFromFlatForm hs hu)) ?_ hr hq
    cases rev with
    | false => exact .inl rfl
    | true =>
      obtain ⟨xs, hxs, _⟩ := eoListRev_spec (show eoListRev _ _ _ = some p from hp)
      rw [← naryView_reStrMap hq]
      exact .inr (naryView_of_getNAryChildren hxs)
  refine reVal_reNaryElim ?_
  cases rev with
  | false =>
    cases hp
    exact reReads_false.1 hconv
  | true => exact reReads_false.1 (reReads_eoListRev hconv hp)

end RegularExpressions

end EthosCpc
