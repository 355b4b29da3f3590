import EthosCpc.Library.Overlaps
import EthosCpc.Cpc.Overlap
import EthosCpc.Cpc.StringsSpec

/-!
# What an overlap means

`dirWord` turns a word around when a list is read from the back.  In this
form a list in either direction denotes the words of its elements in their
order, and an overlap that `$str_overlap_rec` computes is a fact about two
words.

`$str_is_compatible` trusts `$are_distinct_terms`: two components that are
reported distinct are taken for words that cannot begin the same string.
`OverlapCompares` says this of the pairs that are compared.
-/

namespace EthosCpc

open Term (bop uop)
open Library
open Option (some.inj)

variable {Γ : Nat → Ty} {I : Interp Γ} {T : Ty} {t u : Term} {rev : Bool}

/-! ## Words in one direction -/

section DirWord

variable {α : Type*} {x y : List α}

/-- A word as it is read from the front or from the back. -/
def dirWord (rev : Bool) (l : List α) : List α := if rev then l.reverse else l

@[simp] lemma dirWord_nil : dirWord rev ([] : List α) = [] := by
  cases rev <;> rfl

lemma dirWord_dirOp : dirWord rev (dirOp (· ++ ·) rev x y) = dirWord rev x ++ dirWord rev y := by
  cases rev with
  | false => rfl
  | true => exact List.reverse_append

@[simp] lemma length_dirWord : (dirWord rev x).length = x.length := by
  cases rev with
  | false => rfl
  | true => exact List.length_reverse

lemma dirWord_inj : dirWord rev x = dirWord rev y ↔ x = y := by
  cases rev with
  | false => exact Iff.rfl
  | true => exact List.reverse_inj

lemma eq_dirOp_iff {z : List α} :
    x = dirOp (· ++ ·) rev y z ↔ dirWord rev x = dirWord rev y ++ dirWord rev z := by
  have hinj : dirWord rev x = dirWord rev (dirOp (· ++ ·) rev y z) ↔
      x = dirOp (· ++ ·) rev y z := dirWord_inj
  rw [← hinj, dirWord_dirOp]

end DirWord

/-- The list term with the given elements. -/
abbrev strList (T : Ty) (xs : List Term) : Term :=
  prependNAryChildren (.sym .strConcat) (seqNil T) xs

lemma strList_inj {xs ys : List Term} (h : strList T xs = strList T ys) : xs = ys := by
  have hxs := getNAryChildren_prepend (naryView_seqNil T) xs
  rw [show prependNAryChildren _ _ xs = prependNAryChildren _ _ ys from h,
    getNAryChildren_prepend (naryView_seqNil T) ys] at hxs
  exact (some.inj hxs).symm

/-- The word of an element in the direction of reading. -/
def DirVal (I : Interp Γ) (T : Ty) (rev : Bool) (t : Term) (w : List (Dom I.U T)) : Prop :=
  ∃ x, SeqVal I T t x ∧ w = dirWord rev x

lemma DirVal.unique {w w' : List (Dom I.U T)} (h : DirVal I T rev t w)
    (h' : DirVal I T rev t w') : w = w' := by
  obtain ⟨x, hx, rfl⟩ := h
  obtain ⟨y, hy, rfl⟩ := h'
  rw [hx.unique hy]

/-- The words of the elements of a list, one after the other. -/
abbrev DirReads (I : Interp Γ) (T : Ty) (rev : Bool) : List Term → List (Dom I.U T) → Prop :=
  ReadsList (DirVal I T rev) (· ++ ·) []

variable {xs ys : List Term} {l v w : List (Dom I.U T)}

lemma dirReads_of_readsList (h : ReadsList (SeqVal I T) (dirOp (· ++ ·) rev) [] xs l) :
    DirReads I T rev xs (dirWord rev l) := by
  induction xs generalizing l with
  | nil =>
    obtain rfl : l = [] := h
    exact dirWord_nil
  | cons x xs ih =>
    obtain ⟨a, b, ha, hb, rfl⟩ := h
    exact ⟨dirWord rev a, dirWord rev b, ⟨a, ha, rfl⟩, ih hb, dirWord_dirOp⟩

lemma dirReads_of_strReads (h : StrReads I T rev (strList T xs) l) :
    DirReads I T rev xs (dirWord rev l) :=
  dirReads_of_readsList (strReads_prepend.1 h)

/-! ## Flat form -/

/-- The characters of a literal, as terms. -/
def strChars (s : Str) : List Term := s.map fun c => .str [c]

lemma strFlattenWord_eq (s : Str) : strFlattenWord s = strList .char (strChars s) := by
  induction s with
  | nil => rfl
  | cons c s ih =>
    rw [strFlattenWord, ih]
    rfl

/-- What becomes of an element in the flat form. -/
def flatElems : Term → List Term
  | .str s => if 1 < s.length then strChars s else [.str s]
  | t => [t]

lemma flatElems_str (s : Str) :
    flatElems (.str s) = if 1 < s.length then strChars s else [.str s] := rfl

lemma length_of_mem_flatElems {s : Str} (h : .str s ∈ flatElems t) : s.length ≤ 1 := by
  unfold flatElems at h
  split at h
  swap
  · rename_i hns
    exact absurd (List.mem_singleton.1 h).symm (hns s)
  split at h
  · obtain ⟨c, _, hc⟩ := List.mem_map.1 h
    cases hc
    exact le_rfl
  rename_i hshort
  cases List.mem_singleton.1 h
  omega

lemma nilFor_strConcat (ht : SeqVal I T t l) {nil : Term}
    (h : nilFor Γ .strConcat t = some nil) : nil = seqNil T :=
  seqEmpty_typeof ht h

lemma strFlatten_spec (ht : SeqVal I T t l) (h : strFlatten Γ t = some u) :
    ∃ zs, t = strList T zs ∧ u = strList T (zs.flatMap flatElems) := by
  induction t using listInduction .strConcat generalizing l u with
  | base t hb =>
    rw [strFlatten_of_not_isBop hb] at h
    obtain ⟨rfl, rfl⟩ := strSelfIfEmpty_inv ht h
    exact ⟨[], rfl, rfl⟩
  | step a b ih =>
    obtain ⟨p, q, ha, hb, rfl⟩ := seqVal_concat.1 ht
    obtain ⟨v, hv, h⟩ := bind_inv h
    obtain ⟨zs, rfl, rfl⟩ := ih hb hv
    refine ⟨a :: zs, rfl, ?_⟩
    rw [List.flatMap_cons]
    cases a with
    | str s =>
      -- only a long literal is split
      have hlen : strCheckLenGtOne (.str s) = true ↔ 1 < s.length := decide_eq_true_iff
      dsimp only at h
      rw [flatElems_str]
      split at h
      · rename_i hlong
        rw [if_pos (hlen.1 hlong)]
        obtain rfl := seqVal_str ha
        obtain ⟨nil, hnil, h⟩ := bind_inv h
        obtain rfl := nilFor_strConcat (strVal_strFlattenWord (I := I)) hnil
        obtain ⟨xs, ys, hxs, hys, rfl⟩ := eoListConcat_spec h
        rw [strFlattenWord_eq, getNAryChildren_prepend (naryView_seqNil _)] at hxs
        rw [getNAryChildren_prepend (naryView_seqNil _)] at hys
        cases hxs
        cases hys
        rfl
      · rename_i hshort
        rw [if_neg fun hl => hshort (hlen.2 hl)]
        cases h
        rfl
    | _ =>
      cases h
      rfl

lemma strToFlatForm_spec (ht : SeqVal I T t l) (h : strToFlatForm Γ t rev = some u) :
    ∃ v zs, strNaryIntro Γ t = some v ∧ v = strList T zs ∧
      u = strList T (dirWord rev (zs.flatMap flatElems)) ∧
      DirReads I T rev (dirWord rev (zs.flatMap flatElems)) (dirWord rev l) := by
  have hreads := strReads_strToFlatForm ht h
  obtain ⟨v, hv, h⟩ := bind_inv h
  obtain ⟨w, hw, h⟩ := bind_inv h
  have hval := seqVal_strNaryIntro ht hv
  obtain ⟨zs, rfl, rfl⟩ := strFlatten_spec hval hw
  have hu : u = strList T (dirWord rev (zs.flatMap flatElems)) := by
    cases rev with
    | false =>
      cases h
      rfl
    | true =>
      obtain ⟨nil, hnil, h⟩ := bind_inv h
      obtain rfl := nilFor_strConcat (seqVal_strFlatten hval hw) hnil
      obtain ⟨ys, hys, rfl⟩ := eoListRev_spec h
      rw [getNAryChildren_prepend (naryView_seqNil _)] at hys
      cases hys
      rfl
  exact ⟨_, zs, hv, rfl, hu, dirReads_of_strReads (hu ▸ hreads)⟩

lemma mem_dirWord {α : Type*} {x : α} {l : List α} : x ∈ dirWord rev l ↔ x ∈ l := by
  cases rev with
  | false => exact Iff.rfl
  | true => exact List.mem_reverse

lemma flatMap_flatElems_str (c : CodePoint) (s : Str) :
    [Term.str (c :: s)].flatMap flatElems = strChars (c :: s) := by
  rw [List.flatMap_singleton, flatElems]
  split
  · rfl
  rename_i hshort
  rw [List.length_cons] at hshort
  have hs : s = [] := List.eq_nil_of_length_eq_zero (by omega)
  rw [hs]
  rfl

lemma strToFlatForm_str (I : Interp Γ) {s : Str} (h : strToFlatForm Γ (.str s) rev = some u) :
    u = strList .char (strChars (dirWord rev s)) := by
  obtain ⟨v, zs, hv, rfl, rfl, -⟩ :=
    strToFlatForm_spec (I := I) (T := .char) (strVal_str.2 rfl) h
  have hchars : zs.flatMap flatElems = strChars s := by
    cases s with
    | nil =>
      have hzs : strList .char zs = strList .char [] := (some.inj hv).symm
      rw [strList_inj hzs]
      rfl
    | cons c s =>
      have hzs : strList .char zs = strList .char [.str (c :: s)] := (some.inj hv).symm
      rw [strList_inj hzs, flatMap_flatElems_str]
  rw [hchars]
  cases rev with
  | false => rfl
  | true => rw [strChars, dirWord, if_pos rfl, ← List.map_reverse]; rfl

/-! ## Compatibility and overlaps -/

/-- Two terms whose words, in the direction of reading, cannot begin the same string. -/
def Apart (I : Interp Γ) (T : Ty) (rev : Bool) (c1 c2 : Term) : Prop :=
  ∀ w1 w2, DirVal I T rev c1 w1 → DirVal I T rev c2 w2 → ¬ Comparable w1 w2

/-- The pair of components that `$str_is_compatible` asks `$are_distinct_terms` about. -/
def ComparesOnly (ok : Term → Term → Prop) : Term → Term → Prop
  | .app (.app (.sym .strConcat) c1) xs1, .app (.app (.sym .strConcat) c2) xs2 =>
    if c1 = c2 then ComparesOnly ok xs1 xs2 else ok c1 c2
  | _, _ => True

/-- The pairs of components that `$str_overlap_rec` has compared. -/
def OverlapCompares (Γ : Nat → Ty) (ok : Term → Term → Prop) : Term → Term → Prop
  | .app (.app (.sym .strConcat) s) s1, t =>
    ComparesOnly ok (bop .strConcat s s1) t ∧
      (strIsCompatible Γ (bop .strConcat s s1) t = some false → OverlapCompares Γ ok s1 t)
  | _, _ => True

section Compatibility

variable {ok : Term → Term → Prop} {n : Nat}
  (hok : ∀ c1 ∈ xs, ∀ c2 ∈ ys, areDistinctTerms Γ c1 c2 = some true → ok c1 c2 →
    Apart I T rev c1 c2)

lemma strIsEmpty_seqNil (T : Ty) : strIsEmpty (seqNil T) = true := by
  cases T <;> rfl

lemma strIsCompatible_nil_left (t : Term) : strIsCompatible Γ (seqNil T) t = some true := by
  rw [strIsCompatible, strIsEmpty_seqNil, Bool.true_or]
  intro c1 xs1 c2 xs2 h
  cases T <;> cases h

lemma strIsCompatible_nil_right (t : Term) : strIsCompatible Γ t (seqNil T) = some true := by
  rw [strIsCompatible, strIsEmpty_seqNil, Bool.or_true]
  intro c1 xs1 c2 xs2 _ h
  cases T <;> cases h

include hok in
lemma not_comparable_of_strIsCompatible
    (h : strIsCompatible Γ (strList T xs) (strList T ys) = some false)
    (hcmp : ComparesOnly ok (strList T xs) (strList T ys)) (hv : DirReads I T rev xs v)
    (hw : DirReads I T rev ys w) : ¬ Comparable v w := by
  induction xs generalizing ys v w with
  | nil =>
    have htrue := strIsCompatible_nil_left (Γ := Γ) (T := T) (strList T ys)
    rw [show strList T [] = seqNil T from rfl, htrue] at h
    cases h
  | cons c1 xs ih =>
    cases ys with
    | nil =>
      have htrue := strIsCompatible_nil_right (Γ := Γ) (T := T) (strList T (c1 :: xs))
      rw [show strList T [] = seqNil T from rfl, htrue] at h
      cases h
    | cons c2 ys =>
      obtain ⟨p, v, hp, hv, rfl⟩ := hv
      obtain ⟨q, w, hq, hw, rfl⟩ := hw
      have hcons : strIsCompatible Γ (bop .strConcat c1 (strList T xs))
          (bop .strConcat c2 (strList T ys)) = some false := h
      have hcmp : ComparesOnly ok (bop .strConcat c1 (strList T xs))
          (bop .strConcat c2 (strList T ys)) := hcmp
      rw [strIsCompatible] at hcons
      rw [ComparesOnly] at hcmp
      split at hcons
      · -- equal components denote the same word
        rename_i heq
        subst heq
        rw [if_pos rfl] at hcmp
        obtain rfl := hp.unique hq
        rw [comparable_append_left]
        refine ih ?_ hcons hcmp hv hw
        exact fun c1 h1 c2 h2 =>
          hok c1 (.tail _ h1) c2 (.tail _ h2)
      rename_i hne
      rw [if_neg hne] at hcmp
      obtain ⟨b, hb, hreq⟩ := bind_inv hcons
      obtain ⟨rfl, -⟩ := eoRequires_eq_some.1 hreq
      have hapart := hok c1 (.head _) c2 (.head _) hb hcmp
      exact fun hcomp => hapart p q hp hq hcomp.of_append

variable (ok) in
include hok in
/-- The computed number of positions is one up to which there is no overlap. -/
lemma noOverlap_of_strOverlapRec (hone : ∀ x ∈ xs, ∀ p, DirVal I T rev x p → p.length = 1)
    (h : strOverlapRec Γ (strList T xs) (strList T ys) = some n)
    (hcmp : OverlapCompares Γ ok (strList T xs) (strList T ys)) (hv : DirReads I T rev xs v)
    (hw : DirReads I T rev ys w) : n ≤ v.length ∧ NoOverlap v w n := by
  induction xs generalizing v n with
  | nil =>
    have hzero : strOverlapRec Γ (seqNil T) (strList T ys) = some 0 := by
      cases T <;> rfl
    rw [show strList T [] = seqNil T from rfl, hzero] at h
    cases h
    exact ⟨Nat.zero_le _, fun i hi => absurd hi (Nat.not_lt_zero i)⟩
  | cons x xs ih =>
    obtain ⟨p, v', hp, hv', rfl⟩ := id hv
    obtain ⟨c, rfl⟩ := List.length_eq_one_iff.1 (hone x (.head _) p hp)
    have hrec : strOverlapRec Γ (bop .strConcat x (strList T xs)) (strList T ys) = some n := h
    have hcmp : OverlapCompares Γ ok (bop .strConcat x (strList T xs)) (strList T ys) := hcmp
    rw [strOverlapRec] at hrec
    rw [OverlapCompares] at hcmp
    obtain ⟨b, hb, hrec⟩ := bind_inv hrec
    split at hrec
    · cases hrec
      exact ⟨Nat.zero_le _, fun i hi => absurd hi (Nat.not_lt_zero i)⟩
    rename_i hfalse
    obtain ⟨m, hm, rfl⟩ := map_inv hrec
    rw [Bool.not_eq_true] at hfalse
    rw [hfalse] at hb
    obtain ⟨hle, hno⟩ := ih (fun c1 h1 => hok c1 (.tail _ h1))
      (fun y hy => hone y (.tail _ hy)) hm (hcmp.2 hb) hv'
    constructor
    · rw [List.length_append, List.length_singleton]
      omega
    intro i hi
    cases i with
    | zero => exact not_comparable_of_strIsCompatible hok hb hcmp.1 hv hw
    | succ i => exact hno i (by omega)

end Compatibility

end EthosCpc
