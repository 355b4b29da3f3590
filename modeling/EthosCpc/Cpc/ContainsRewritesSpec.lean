import EthosCpc.Cpc.ContainsRewrites
import EthosCpc.Cpc.OverlapSpec
import EthosCpc.Semantics.SeqOps

/-!
# Soundness of the rewrites on containment, search and replacement

The rules compare components by `$are_distinct_terms`.  Two components that
are reported distinct count as two different letters, and they are if both
are letters, `IsLetter`: a literal of length one or a `seq.unit` whose
element, where it is a sequence itself, is a list of such units.

A component that is not a letter can be empty or longer, and
`$seq_distinct_terms` calls any two sequences distinct that it cannot
compare.  So the theorem is about the steps that only use such answers on
letters.
-/

namespace EthosCpc

open Term (bop uop)
open Library
open Option (some.inj)
open List (append_nil count_append mem_cons mem_singleton not_mem_nil)

variable {Γ : Nat → Ty} {I : Interp Γ} {T : Ty} {a b c d s t u : Term} {rev : Bool}

/-! ## Distinct terms -/

def seqValueLike (Γ : Nat → Ty) : Term → Bool
  | .app (.app (.sym .strConcat) (.app (.sym .seqUnit) e)) ss =>
    (match typeof Γ e with
      | some (.seq .char) => true
      | some (.seq _) => seqValueLike Γ e
      | T => T.isSome) && seqValueLike Γ ss
  | .app (.sym .seqUnit) e =>
    match typeof Γ e with
    | some (.seq .char) => true
    | some (.seq _) => seqValueLike Γ e
    | T => T.isSome
  | t => strIsEmpty t

/-- Is the term a list of units where it is a sequence that is not a string? -/
def elemOk (Γ : Nat → Ty) (e : Term) : Bool :=
  match typeof Γ e with
  | some (.seq .char) => true
  | some (.seq _) => seqValueLike Γ e
  | T => T.isSome

lemma seqValueLike_cons {e ss : Term} :
    seqValueLike Γ (bop .strConcat (uop .seqUnit e) ss) = (elemOk Γ e && seqValueLike Γ ss) := by
  rw [seqValueLike]
  rfl

lemma seqValueLike_unit {e : Term} : seqValueLike Γ (uop .seqUnit e) = elemOk Γ e := by
  rw [seqValueLike]
  rfl

def LetterForm (t : Term) : Prop := (∃ c, t = .str [c]) ∨ ∃ e, t = uop .seqUnit e

/-- The term is a letter of a string or sequence. -/
def IsLetter (Γ : Nat → Ty) (t : Term) : Prop := LetterForm t ∧ elemOk Γ t = true

variable {l : List (Dom I.U T)}

lemma seqVal_unit :
    SeqVal I T (uop .seqUnit a) l ↔ ∃ x : Dom I.U T, value I a = some ⟨T, x⟩ ∧ l = [x] := by
  unfold SeqVal
  rw [value_seqUnit]
  constructor
  · rintro ⟨S, x, ha, heq⟩
    obtain rfl : T = S := Ty.seq.inj (congrArg Sigma.fst heq)
    exact ⟨x, ha, Val.mk_inj.1 heq⟩
  · rintro ⟨x, ha, rfl⟩
    exact ⟨T, x, ha, rfl⟩

lemma eq_seqEmpty_of_strIsEmpty (hT : T ≠ .char) (ht : SeqVal I T t l)
    (h : strIsEmpty t = true) : t = .sym (.seqEmpty T) := by
  unfold strIsEmpty at h
  split at h
  · rename_i S
    have hval : value I (.sym (.seqEmpty S)) = some (Val.seq S []) := rfl
    have heq := congrArg Sigma.fst (some.inj (hval.symm.trans ht))
    cases heq
    rfl
  · exact absurd (Ty.seq.inj (congrArg Sigma.fst (some.inj ht))).symm hT
  · cases h

lemma seqUnitIntro_spec (hT : T ≠ .char) (ht : SeqVal I T t l)
    (hlike : seqValueLike Γ t = true) (h : seqUnitIntro Γ t = some u) :
    SeqVal I T u l ∧ seqValueLike Γ u = true ∧
      ((∃ e ss, u = bop .strConcat (uop .seqUnit e) ss) ∨ u = .sym (.seqEmpty T)) := by
  unfold seqUnitIntro at h
  split at h
  · rename_i e
    obtain ⟨nil, hnil, rfl⟩ := map_inv h
    obtain rfl := nilFor_strConcat ht hnil
    refine ⟨?_, ?_, .inl ⟨e, seqNil T, rfl⟩⟩
    · exact seqVal_concat.2 ⟨l, [], ht, seqVal_seqNil.2 rfl, (append_nil l).symm⟩
    rw [seqValueLike_unit] at hlike
    show seqValueLike Γ (bop .strConcat (uop .seqUnit e) (seqNil T)) = true
    rw [seqValueLike_cons, hlike, Bool.true_and]
    cases T <;> rfl
  rename_i hnu
  cases h
  refine ⟨ht, hlike, ?_⟩
  unfold seqValueLike at hlike
  split at hlike
  · rename_i e ss
    exact .inl ⟨e, ss, rfl⟩
  · rename_i e
    exact absurd rfl (hnu e)
  · exact .inr (eq_seqEmpty_of_strIsEmpty hT ht hlike)

/-- The answer that two terms of the given shape are distinct is right. -/
def SoundOn (I : Interp Γ) (distinct : Term → Term → Option Bool) : Prop :=
  ∀ t s v w, distinct t s = some true → elemOk Γ t = true → elemOk Γ s = true →
    value I t = some v → value I s = some w → v ≠ w

lemma ne_of_seqDistinctTermsRec {distinct : Term → Term → Option Bool}
    (hd : SoundOn I distinct) {k : Nat} {x y : List (Dom I.U T)} (hT : T ≠ .char)
    (ht : SeqVal I T t x) (hs : SeqVal I T s y) (hlt : seqValueLike Γ t = true)
    (hls : seqValueLike Γ s = true) (h : seqDistinctTermsRec Γ distinct k t s = some true) :
    x ≠ y := by
  induction k generalizing t s x y with
  | zero => contradiction
  | succ k ih =>
    unfold seqDistinctTermsRec at h
    obtain ⟨t', ht', h⟩ := bind_inv h
    obtain ⟨s', hs', h⟩ := bind_inv h
    obtain ⟨htv, htl, htshape⟩ := seqUnitIntro_spec hT ht hlt ht'
    obtain ⟨hsv, hsl, hsshape⟩ := seqUnitIntro_spec hT hs hls hs'
    rcases htshape with ⟨e1, ts, rfl⟩ | rfl
    · obtain ⟨_, x', hx1, hx', rfl⟩ := seqVal_concat.1 htv
      obtain ⟨p, hp, rfl⟩ := seqVal_unit.1 hx1
      rcases hsshape with ⟨e2, ss, rfl⟩ | rfl
      · obtain ⟨_, y', hy1, hy', rfl⟩ := seqVal_concat.1 hsv
        obtain ⟨q, hq, rfl⟩ := seqVal_unit.1 hy1
        rw [seqValueLike_cons, Bool.and_eq_true] at htl hsl
        obtain ⟨b, hb, h⟩ := bind_inv h
        intro heq
        obtain ⟨hpq, htail⟩ := List.cons.inj heq
        split at h
        · rename_i hbt
          rw [hbt] at hb
          exact hd e1 e2 _ _ hb htl.1 hsl.1 hp hq (by rw [hpq])
        · exact ih hx' hy' htl.2 hsl.2 h htail
      · -- the other list is empty
        rw [hsv.unique (show SeqVal I T (.sym (.seqEmpty T)) [] from rfl)]
        exact List.cons_ne_nil _ _
    · have hx : x = [] := htv.unique (show SeqVal I T (.sym (.seqEmpty T)) [] from rfl)
      rcases hsshape with ⟨e2, ss, rfl⟩ | rfl
      · obtain ⟨_, y', hy1, hy', rfl⟩ := seqVal_concat.1 hsv
        obtain ⟨q, hq, rfl⟩ := seqVal_unit.1 hy1
        rw [hx]
        exact (List.cons_ne_nil _ _).symm
      · simp at h

lemma seqValueLike_of_elemOk (hT : T ≠ .char) (ht : SeqVal I T t l)
    (h : elemOk Γ t = true) : seqValueLike Γ t = true := by
  unfold elemOk at h
  split at h
  · rename_i hty
    obtain ⟨x, hx⟩ := value_of_typeof I hty
    exact absurd (Ty.seq.inj (congrArg Sigma.fst (some.inj (hx.symm.trans ht)))).symm hT
  · exact h
  rename_i hns
  obtain ⟨S, hS⟩ := Option.isSome_iff_exists.1 h
  obtain ⟨x, hx⟩ := value_of_typeof I hS
  have hST : S = .seq T := congrArg Sigma.fst (some.inj (hx.symm.trans ht))
  rw [hST] at hS
  exact absurd hS (hns T)

lemma literals_of_value_eq (heq : value I t = value I s)
    (h : isZ t && isZ s || isQ t && isQ s || isStr t && isStr s || isBin t && isBin s ||
      isBool t && isBool s) : t = s := by
  cases t with
  | num n =>
    cases s with
    | num m => rw [Val.int_inj.1 (some.inj heq)]
    | _ => contradiction
  | rat q =>
    cases s with
    | rat r => rw [Rat.cast_injective (Val.real_inj.1 (some.inj heq))]
    | _ => contradiction
  | str x =>
    cases s with
    | str y => rw [show x = y from Val.mk_inj.1 (some.inj heq)]
    | _ => contradiction
  | bin w x =>
    cases s with
    | bin w' y =>
      have hval := some.inj heq
      obtain rfl := Val.width_eq hval
      rw [Val.bitvec_inj.1 hval]
    | _ => contradiction
  | bool p =>
    cases s with
    | bool q => rw [Val.bool_inj.1 (some.inj heq)]
    | _ => contradiction
  | _ => contradiction

/-- Terms that are reported distinct denote different values, where they and their elements are
lists of units. -/
lemma soundOn_areDistinctTermsRec (I : Interp Γ) (k : Nat) :
    SoundOn I (areDistinctTermsRec Γ k) := by
  induction k with
  | zero => exact fun t s v w h => absurd h (by simp [areDistinctTermsRec])
  | succ k ih =>
    intro t s v w h hot hos hv hw hvw
    unfold areDistinctTermsRec at h
    split at h
    · cases h
    rename_i hne
    obtain ⟨S, hS, h⟩ := bind_inv h
    obtain ⟨x, hx⟩ := value_of_typeof I hS
    have heq : value I t = value I s := by rw [hv, hw, hvw]
    have hlit : ∀ b : Bool, some b = some true →
        (b = true → isZ t && isZ s || isQ t && isQ s || isStr t && isStr s ||
          isBin t && isBin s || isBool t && isBool s) → False :=
      fun b hb hor => hne (literals_of_value_eq heq (hor (some.inj hb)))
    unfold areDistinctTermsType at h
    split at h
    · exact hlit _ h (by simp +contextual)
    · exact hlit _ h (by simp +contextual)
    · exact hlit _ h (by simp +contextual)
    · exact hlit _ h (by simp +contextual)
    · exact hlit _ h (by simp +contextual)
    · rename_i T hT
      have hs : SeqVal I T s x := heq.symm.trans hx
      exact ne_of_seqDistinctTermsRec ih hT hx hs (seqValueLike_of_elemOk hT hx hot)
        (seqValueLike_of_elemOk hT hs hos) h rfl
    · cases h

/-! ## Letters -/

lemma exists_letter (h : LetterForm t) (ht : SeqVal I T t l) : ∃ x, l = [x] := by
  obtain ⟨c, rfl⟩ | ⟨e, rfl⟩ := h
  · obtain rfl := seqVal_str ht
    exact ⟨c, strVal_str.1 ht⟩
  · obtain ⟨x, -, rfl⟩ := seqVal_unit.1 ht
    exact ⟨x, rfl⟩

lemma ne_of_areDistinctTerms {x y : List (Dom I.U T)} (hc : IsLetter Γ c) (hd : IsLetter Γ d)
    (h : areDistinctTerms Γ c d = some true) (hx : SeqVal I T c x) (hy : SeqVal I T d y) :
    x ≠ y := by
  intro hxy
  exact soundOn_areDistinctTermsRec I _ c d _ _ h hc.2 hd.2 hx hy (by rw [hxy])

/-- Two components of which a rule may use that they are reported distinct. -/
def LetterPair (Γ : Nat → Ty) (c d : Term) : Prop := IsLetter Γ c ∧ IsLetter Γ d

lemma apart_of_letterPair (h : LetterPair Γ c d) (hdist : areDistinctTerms Γ c d = some true) :
    Apart I T rev c d := by
  rintro _ _ ⟨x, hx, rfl⟩ ⟨y, hy, rfl⟩
  have hne := ne_of_areDistinctTerms h.1 h.2 hdist hx hy
  obtain ⟨p, rfl⟩ := exists_letter h.1.1 hx
  obtain ⟨q, rfl⟩ := exists_letter h.2.1 hy
  have hdir : ∀ z : Dom I.U T, dirWord rev [z] = [z] := by
    intro z
    cases rev <;> rfl
  rw [hdir, hdir]
  exact not_comparable_singleton fun hpq => hne (by rw [hpq])

/-! ## Overlaps of values -/

variable {n : Nat}

lemma length_of_strValueLen {x : List (Dom I.U T)} (hs : SeqVal I T s x)
    (h : strValueLen s = some n) : x.length = n := by
  induction s using strValueLen.induct generalizing x n with
  | case1 e ss ih =>
    obtain ⟨m, hm, rfl⟩ := map_inv h
    obtain ⟨_, y, hy, hy', rfl⟩ := seqVal_concat.1 hs
    obtain ⟨z, -, rfl⟩ := seqVal_unit.1 hy
    rw [List.length_append, List.length_singleton, ih hy' hm]
  | case2 S =>
    cases h
    have hval : value I (.sym (.seqEmpty S)) = some (Val.seq S []) := rfl
    have heq := some.inj (hval.symm.trans hs)
    cases heq
    rfl
  | case3 e =>
    cases h
    obtain ⟨z, -, rfl⟩ := seqVal_unit.1 hs
    rfl
  | case4 w =>
    cases h
    obtain rfl := seqVal_str hs
    obtain rfl : x = w := strVal_str.1 hs
    rfl
  | case5 s h1 h2 h3 h4 =>
    rw [strValueLen] at h
    · contradiction
    all_goals assumption

lemma letterForm_of_strValueLen {zs : List Term}
    (h : strValueLen (strList T zs) = some n) : ∀ z ∈ zs, LetterForm z := by
  induction zs generalizing n with
  | nil => exact fun z hz => absurd hz not_mem_nil
  | cons z zs ih =>
    have hcons : strValueLen (bop .strConcat z (strList T zs)) = some n := h
    unfold strValueLen at hcons
    split at hcons
    · rename_i e ss heq
      cases heq
      obtain ⟨m, hm, _⟩ := map_inv hcons
      intro y hy
      rcases mem_cons.1 hy with rfl | hy
      · exact .inr ⟨e, rfl⟩
      · exact ih hm y hy
    · contradiction
    · rename_i heq
      cases heq
    · contradiction
    · contradiction

lemma letterForm_of_mem_flatElems (ht : LetterForm t) (h : a ∈ flatElems t) : LetterForm a := by
  obtain ⟨c, rfl⟩ | ⟨e, rfl⟩ := id ht
  · rw [flatElems_str, if_neg (by rw [List.length_singleton]; exact Nat.lt_irrefl 1)] at h
    rw [mem_singleton.1 h]
    exact ht
  · rw [mem_singleton.1 h]
    exact ht

lemma letterForm_of_value (h : strValueLen s = some n) (hn : 0 < n)
    (hb : s.isBop .strConcat = false) (ha : a ∈ flatElems s) : LetterForm a := by
  unfold strValueLen at h
  split at h
  · simp [Term.isBop] at hb
  · cases h
    contradiction
  · exact letterForm_of_mem_flatElems (.inr ⟨_, rfl⟩) ha
  · rename_i w
    cases h
    rw [flatElems_str] at ha
    split at ha
    · obtain ⟨d, -, rfl⟩ := List.mem_map.1 ha
      exact .inl ⟨d, rfl⟩
    · obtain ⟨d, rfl⟩ := List.length_eq_one_iff.1 (show w.length = 1 by omega)
      exact .inl ⟨d, mem_singleton.1 ha⟩
  · contradiction

lemma flat_of_strValueLen {x : List (Dom I.U T)} (hs : SeqVal I T s x)
    (h : strValueLen s = some n) (hn : 0 < n) (hflat : strToFlatForm Γ s rev = some u) :
    ∃ us, u = strList T us ∧ DirReads I T rev us (dirWord rev x) ∧ ∀ a ∈ us, LetterForm a := by
  obtain ⟨v, zs, hv, rfl, rfl, hreads⟩ := strToFlatForm_spec hs hflat
  refine ⟨_, rfl, hreads, fun a ha => ?_⟩
  replace ha := mem_dirWord.1 ha
  have hforms : (∀ z ∈ zs, LetterForm z) → LetterForm a := by
    intro hall
    obtain ⟨z, hz, haz⟩ := List.mem_flatMap.1 ha
    exact letterForm_of_mem_flatElems (hall z hz) haz
  cases hb : s.isBop .strConcat with
  | true =>
    -- a list of units
    rw [strNaryIntro, if_pos hb] at hv
    rw [some.inj hv] at h
    exact hforms (letterForm_of_strValueLen h)
  | false =>
    rw [strNaryIntro, if_neg (by rw [hb]; exact Bool.false_ne_true)] at hv
    obtain ⟨nil, hnil, hv⟩ := map_inv hv
    obtain rfl := seqEmpty_typeof hs hnil
    split at hv
    · rename_i hempty
      have hnil : zs = [] := strList_inj (hv.symm.trans hempty)
      rw [hnil] at ha
      exact absurd ha not_mem_nil
    rename_i hne
    have hzs : strList T [s] = strList T zs := hv
    obtain rfl := strList_inj hzs
    rw [List.flatMap_singleton] at ha
    exact letterForm_of_value h hn hb ha

/-- The comparisons of an overlap that report a pair distinct are between letters. -/
def OverlapsLetters (Γ : Nat → Ty) (s t : Term) (rev : Bool) : Prop :=
  ∀ u ∈ strToFlatForm Γ s rev, ∀ v ∈ strToFlatForm Γ t rev, OverlapCompares Γ (LetterPair Γ) u v

lemma noOverlap_of_strHasOverlap {x y : List (Dom I.U T)} (hs : SeqVal I T s x)
    (ht : SeqVal I T t y) (hcmp : OverlapsLetters Γ s t rev)
    (h : strHasOverlap Γ s t rev = some false) :
    NoOverlap (dirWord rev x) (dirWord rev y) x.length := by
  obtain ⟨n, hn, h⟩ := bind_inv h
  obtain ⟨m, hm, hle⟩ := map_inv h
  have hle := of_decide_eq_false hle
  rw [length_of_strValueLen hs hn]
  obtain ⟨u, hu, hm⟩ := bind_inv hm
  obtain ⟨v, hv, hm⟩ := bind_inv hm
  have hcmp := hcmp u hu v hv
  rcases Nat.eq_zero_or_pos n with rfl | hpos
  · exact fun i hi => absurd hi (Nat.not_lt_zero i)
  obtain ⟨us, rfl, hreads, hletters⟩ := flat_of_strValueLen hs hn hpos hu
  obtain ⟨_, zs, -, -, rfl, hreads'⟩ := strToFlatForm_spec ht hv
  obtain ⟨_, hno⟩ := noOverlap_of_strOverlapRec (LetterPair Γ)
    (fun c1 _ c2 _ hdist hok => apart_of_letterPair hok hdist)
    (fun a ha p hp => by
      obtain ⟨q, hq, rfl⟩ := hp
      obtain ⟨z, rfl⟩ := exists_letter (hletters a ha) hq
      rw [length_dirWord]
      rfl) hm hcmp hreads hreads'
  exact fun i hi => hno i (by omega)

/-! ## The rules on overlaps -/

variable {G emp c1 c2 d1 d2 : Term}

lemma requireNoOverlap_eq_some {r : Option Term} :
    requireNoOverlap Γ s t rev r = some G ↔ strHasOverlap Γ s t rev = some false ∧ r = some G := by
  unfold requireNoOverlap
  constructor
  · intro h
    obtain ⟨b, hb, h⟩ := bind_inv h
    obtain ⟨hfalse, h⟩ := eoRequires_eq_some.1 h
    rw [Bool.not_eq_true'] at hfalse
    exact ⟨hfalse ▸ hb, h⟩
  · rintro ⟨hb, h⟩
    rw [hb]
    exact h

lemma eq_nil_of_strIsEmpty (ht : SeqVal I T t l) (h : strIsEmpty t = true) : l = [] := by
  unfold strIsEmpty at h
  split at h
  · rename_i S
    have hval : value I (.sym (.seqEmpty S)) = some (Val.seq S []) := rfl
    cases some.inj (hval.symm.trans ht)
    rfl
  · obtain rfl := seqVal_str ht
    exact strVal_str.1 ht
  · cases h

lemma seqVal_concat2 (hemp : strIsEmpty emp = true) : SeqVal I T (concat2 a b emp) l ↔
      ∃ x y, SeqVal I T a x ∧ SeqVal I T b y ∧ SeqVal I T emp [] ∧ l = x ++ y := by
  constructor
  · intro h
    obtain ⟨x, z, ha, hz, rfl⟩ := seqVal_concat.1 h
    obtain ⟨y, e, hb, he, rfl⟩ := seqVal_concat.1 hz
    obtain rfl := eq_nil_of_strIsEmpty he hemp
    exact ⟨x, y, ha, hb, he, by rw [append_nil]⟩
  · rintro ⟨x, y, ha, hb, he, rfl⟩
    refine seqVal_concat.2 ⟨x, y, ha, seqVal_concat.2 ⟨y, [], hb, he, ?_⟩, rfl⟩
    rw [append_nil]

lemma seqVal_concat3 (hemp : strIsEmpty emp = true) : SeqVal I T (concat3 a b c emp) l ↔
      ∃ x y z, SeqVal I T a x ∧ SeqVal I T b y ∧ SeqVal I T c z ∧ SeqVal I T emp [] ∧
        l = x ++ (y ++ z) := by
  constructor
  · intro h
    obtain ⟨x, w, ha, hw, rfl⟩ := seqVal_concat.1 h
    obtain ⟨y, z, hb, hc, he, rfl⟩ := (seqVal_concat2 hemp).1 hw
    exact ⟨x, y, z, ha, hb, hc, he, rfl⟩
  · rintro ⟨x, y, z, ha, hb, hc, he, rfl⟩
    exact seqVal_concat.2 ⟨x, y ++ z, ha, (seqVal_concat2 hemp).2 ⟨y, z, hb, hc, he, rfl⟩, rfl⟩

lemma value_contains {v : Val I.U} : value I (bop .strContains a b) = some v ↔
      ∃ T x y, SeqVal I T a x ∧ SeqVal I T b y ∧ v = Val.bool (truth (y <:+: x)) :=
  value_seqRel (p := fun _ x y => y <:+: x) rfl rfl

lemma boolVal_contains {x y : List (Dom I.U T)} (ha : SeqVal I T a x) (hb : SeqVal I T b y) :
    BoolVal I (bop .strContains a b) (y <:+: x) :=
  value_contains.2 ⟨T, x, y, ha, hb, rfl⟩

open Classical in
lemma value_replace {v : Val I.U} : value I (.app (bop .strReplace a b) c) = some v ↔
      ∃ T x y z, SeqVal I T a x ∧ SeqVal I T b y ∧ SeqVal I T c z ∧
        v = Val.seq T (Words.replace x y z) :=
  value_seq3 (f := fun _ => Words.replace) rfl rfl

/-- The sides of an equation of a well-typed conclusion have values. -/
lemma value_lhs (hty : typeof Γ (bop .eq a G) = some .bool) :
    ∃ v : Val I.U, value I a = some v := by
  obtain ⟨A, B, hA, _, _⟩ := typeof_bop_inv rfl hty
  obtain ⟨x, hx⟩ := value_of_typeof I hA
  exact ⟨_, hx⟩

lemma sat_strOverlapSplitCtn (hty : typeof Γ G = some .bool)
    (hcd : OverlapsLetters Γ c d false) (hdc : OverlapsLetters Γ d c false)
    (h : strOverlapSplitCtn Γ t c s d emp = some G) : Sat I G := by
  obtain ⟨hemp, h⟩ := eoRequires_eq_some.1 h
  obtain ⟨h1, h⟩ := requireNoOverlap_eq_some.1 h
  obtain ⟨h2, h⟩ := requireNoOverlap_eq_some.1 h
  cases h
  obtain ⟨v, hv⟩ := value_lhs (I := I) hty
  obtain ⟨T, w, y, hw, hd, _⟩ := value_contains.1 hv
  obtain ⟨p, q, r, ht, hc, hs, he, rfl⟩ := (seqVal_concat3 hemp).1 hw
  have hno1 : NoOverlap q y q.length := noOverlap_of_strHasOverlap hc hd hcd h1
  have hno2 : NoOverlap y q y.length := noOverlap_of_strHasOverlap hd hc hdc h2
  refine (boolVal_eq (boolVal_contains hw hd) (boolVal_or (boolVal_contains ht hd)
    (boolVal_or (boolVal_contains hs hd) (boolVal_bool false)))).sat.2 ?_
  rw [infix_split hno1 hno2]
  simp

/-- The middle part of a concatenation whose ends have no overlap with the ends of a word. -/
lemma occursInside_of_strHasOverlap
    {x1 x2 y1 y2 : List (Dom I.U T)} (x y : List (Dom I.U T)) (hc1 : SeqVal I T c1 x1)
    (hc2 : SeqVal I T c2 x2) (hd1 : SeqVal I T d1 y1) (hd2 : SeqVal I T d2 y2)
    (hl1 : OverlapsLetters Γ c1 d1 false) (hl2 : OverlapsLetters Γ c2 d2 true)
    (h1 : strHasOverlap Γ c1 d1 false = some false)
    (h2 : strHasOverlap Γ c2 d2 true = some false) :
    OccursInside x1 x x2 (y1 ++ (y ++ y2)) :=
  occursInside_of_noOverlap (noOverlap_of_strHasOverlap hc1 hd1 hl1 h1)
    (noOverlap_of_strHasOverlap hc2 hd2 hl2 h2)

lemma sat_strOverlapEndpointsCtn (hty : typeof Γ G = some .bool)
    (hl1 : OverlapsLetters Γ c1 d1 false) (hl2 : OverlapsLetters Γ c2 d2 true)
    (h : strOverlapEndpointsCtn Γ c1 s c2 d1 t d2 emp = some G) : Sat I G := by
  obtain ⟨hemp, h⟩ := eoRequires_eq_some.1 h
  obtain ⟨h1, h⟩ := requireNoOverlap_eq_some.1 h
  obtain ⟨h2, h⟩ := requireNoOverlap_eq_some.1 h
  cases h
  obtain ⟨v, hv⟩ := value_lhs (I := I) hty
  classical
  obtain ⟨T, w, w', hw, hw', _⟩ := value_contains.1 hv
  obtain ⟨x1, x, x2, hc1, hs, hc2, -, rfl⟩ := (seqVal_concat3 hemp).1 hw
  obtain ⟨y1, y, y2, hd1, ht, hd2, -, rfl⟩ := (seqVal_concat3 hemp).1 hw'
  refine (boolVal_eq (boolVal_contains hw hw') (boolVal_contains hs hw')).sat.2 ?_
  exact infix_of_occursInside (occursInside_of_strHasOverlap x y hc1 hc2 hd1 hd2 hl1 hl2 h1 h2)

open Classical in
lemma indexof_zero {α : Type*} (s t : List α) :
    Words.indexof s t 0 = (Words.find t s).elim (-1) fun i => (i : Int) := by
  unfold Words.indexof
  rw [if_pos ⟨le_rfl, Int.natCast_nonneg _⟩, Int.toNat_zero, List.drop_zero]
  cases Words.find t s with
  | none => rfl
  | some i => exact Int.zero_add _

lemma sat_strOverlapEndpointsIndexof (hty : typeof Γ G = some .bool)
    (hl : OverlapsLetters Γ c d true)
    (h : strOverlapEndpointsIndexof Γ s c t d emp = some G) : Sat I G := by
  obtain ⟨hemp, h⟩ := eoRequires_eq_some.1 h
  obtain ⟨h1, h⟩ := requireNoOverlap_eq_some.1 h
  cases h
  obtain ⟨v, hv⟩ := value_lhs (I := I) hty
  classical
  obtain ⟨T, w, w', n, hw, hw', hn, rfl⟩ := value_indexof.1 hv
  obtain rfl := intVal_num.1 hn
  obtain ⟨x, x2, hs, hc, -, rfl⟩ := (seqVal_concat2 hemp).1 hw
  obtain ⟨y, y2, ht, hd, -, rfl⟩ := (seqVal_concat2 hemp).1 hw'
  have hin : OccursInside [] x x2 ([] ++ (y ++ y2)) :=
    occursInside_of_noOverlap (fun i hi => absurd hi (Nat.not_lt_zero i))
      (noOverlap_of_strHasOverlap hc hd hl h1)
  refine sat_eq.2 ⟨_, hv, ?_⟩
  refine value_indexof.2 ⟨T, x, y ++ y2, 0, hs, hw', hn, ?_⟩
  have hfind := find_of_occursInside hin
  rw [List.nil_append, List.nil_append] at hfind
  rw [indexof_zero, indexof_zero, hfind]
  cases Words.find (y ++ y2) x with
  | none => rfl
  | some i => rw [Option.map_some, List.length_nil, Nat.zero_add]

lemma sat_strOverlapEndpointsReplace {r : Term}
    (hty : typeof Γ G = some .bool) (hl1 : OverlapsLetters Γ c1 d1 false)
    (hl2 : OverlapsLetters Γ c2 d2 true)
    (h : strOverlapEndpointsReplace Γ c1 s c2 d1 t d2 r emp = some G) : Sat I G := by
  obtain ⟨hemp, h⟩ := eoRequires_eq_some.1 h
  obtain ⟨h1, h⟩ := requireNoOverlap_eq_some.1 h
  obtain ⟨h2, h⟩ := requireNoOverlap_eq_some.1 h
  cases h
  obtain ⟨v, hv⟩ := value_lhs (I := I) hty
  classical
  obtain ⟨T, w, w', z, hw, hw', hr, rfl⟩ := value_replace.1 hv
  obtain ⟨x1, x, x2, hc1, hs, hc2, he, rfl⟩ := (seqVal_concat3 hemp).1 hw
  obtain ⟨y1, y, y2, hd1, ht, hd2, -, rfl⟩ := (seqVal_concat3 hemp).1 hw'
  refine sat_eq.2 ⟨_, hv, ?_⟩
  have hmid := value_replace.2 ⟨T, x, y1 ++ (y ++ y2), z, hs, hw', hr, rfl⟩
  rw [replace_of_occursInside (occursInside_of_strHasOverlap x y hc1 hc2 hd1 hd2 hl1 hl2 h1 h2)]
  exact (seqVal_concat3 hemp).2 ⟨x1, _, x2, hc1, hmid, hc2, he, rfl⟩

/-! ## Multisets of components -/

section Multisets

open Classical

/-- The sequence that a component denotes. -/
noncomputable def seqWord (I : Interp Γ) (T : Ty) (t : Term) : List (Dom I.U T) :=
  if h : ∃ l, SeqVal I T t l then h.choose else []

lemma seqWord_eq {l : List (Dom I.U T)} (h : SeqVal I T t l) : seqWord I T t = l := by
  have hex : ∃ l, SeqVal I T t l := ⟨l, h⟩
  rw [seqWord, dif_pos hex]
  exact hex.choose_spec.unique h

/-- How often a letter occurs in the components of a list. -/
noncomputable def letterCount (I : Interp Γ) (T : Ty) (x : Dom I.U T) (ts : List Term) : Nat :=
  (ts.flatMap (seqWord I T)).count x

variable {x : Dom I.U T} {ts us : List Term}

lemma letterCount_cons : letterCount I T x (t :: ts) =
    (seqWord I T t).count x + letterCount I T x ts := by
  rw [letterCount, List.flatMap_cons, count_append]
  rfl

lemma letterCount_append :
    letterCount I T x (ts ++ us) = letterCount I T x ts + letterCount I T x us := by
  rw [letterCount, List.flatMap_append, count_append]
  rfl

lemma letterCount_erase (h : t ∈ ts) :
    letterCount I T x ts = (seqWord I T t).count x + letterCount I T x (ts.erase t) := by
  rw [← letterCount_cons]
  exact ((List.perm_cons_erase h).flatMap_right _).count_eq x

lemma count_substr_le {α : Type*} [DecidableEq α] (y : α) (l : List α) (n m : Int) :
    (Words.substr l n m).count y ≤ l.count y := by
  unfold Words.substr
  split
  · exact ((List.take_sublist _ _).trans (List.drop_sublist _ _)).count_le y
  · exact Nat.zero_le _

lemma count_replace_le {α : Type*} [DecidableEq α] (y : α) (l p u : List α) :
    (Words.replace l p u).count y ≤ l.count y + u.count y := by
  unfold Words.replace
  split
  swap
  · exact Nat.le_add_right _ _
  rename_i i _
  have hle := (List.drop_sublist p.length (l.drop i)).count_le y
  rw [List.drop_drop] at hle
  have hsplit := congrArg (List.count y) (List.take_append_drop i l)
  rw [count_append] at hsplit
  rw [count_append, count_append]
  omega

lemma count_wordOverapprox {y : Dom I.U .char} (w : List (Dom I.U .char)) :
    w.count y ≤ letterCount I .char y (wordOverapprox w) := by
  induction w with
  | nil => exact Nat.zero_le _
  | cons c w ih =>
    have hword : seqWord I .char (.str [c]) = [c] := seqWord_eq (strVal_str.2 rfl)
    have hcons : letterCount I .char y (wordOverapprox (c :: w)) =
        (seqWord I .char (.str [c])).count y + letterCount I .char y (wordOverapprox w) :=
      letterCount_cons
    refine le_trans ?_ hcons.ge
    rw [hword, ← List.singleton_append, count_append]
    exact Nat.add_le_add_left ih _

lemma count_eq_letterCount_singleton {l : List (Dom I.U T)} (ht : SeqVal I T t l) :
    l.count x = letterCount I T x [t] := by
  rw [letterCount, List.flatMap_singleton, seqWord_eq ht]

lemma count_le_overapprox {l : List (Dom I.U T)} (ht : SeqVal I T t l) :
    l.count x ≤ letterCount I T x (strMultisetOverapprox t) := by
  induction t using strMultisetOverapprox.induct generalizing l with
  | case1 s ss ihs ihss =>
    obtain ⟨y, z, hy, hz, rfl⟩ := seqVal_concat.1 ht
    rw [strMultisetOverapprox, letterCount_append, count_append]
    exact Nat.add_le_add (ihs hy) (ihss hz)
  | case2 s n m ih =>
    obtain ⟨S, y, i, j, hs, _, _, heq⟩ := value_substr.1 ht
    cases heq
    rw [strMultisetOverapprox]
    exact (count_substr_le x y i j).trans (ih hs)
  | case3 s p r ihs ihr =>
    obtain ⟨S, y, q, z, hs, _, hr, heq⟩ := value_replace.1 ht
    cases heq
    rw [strMultisetOverapprox, letterCount_append]
    exact (count_replace_le x y q z).trans (Nat.add_le_add (ihs hs) (ihr hr))
  | case4 =>
    obtain rfl := seqVal_str ht
    rw [show l = [] from strVal_str.1 ht]
    exact Nat.zero_le _
  | case5 w hne hlong =>
    obtain rfl := seqVal_str ht
    rw [strMultisetOverapprox, if_neg hne, if_pos hlong]
    obtain rfl : l = w := strVal_str.1 ht
    exact count_wordOverapprox l
  | case6 w hne hshort =>
    rw [strMultisetOverapprox, if_neg hne, if_neg hshort]
    exact (count_eq_letterCount_singleton ht).le
  | case7 s h1 h2 h3 h4 hempty =>
    rw [eq_nil_of_strIsEmpty ht hempty]
    exact Nat.zero_le _
  | case8 s h1 h2 h3 h4 hne =>
    rw [strMultisetOverapprox, if_neg hne]
    · exact (count_eq_letterCount_singleton ht).le
    all_goals assumption

variable (I x ts) in
lemma letterCount_removeComponents (nr zs : List Term) :
    letterCount I T x (removeComponents (strList T zs) ts nr).2 + letterCount I T x ts =
      letterCount I T x zs + letterCount I T x nr +
        letterCount I T x (removeComponents (strList T zs) ts nr).1 := by
  induction zs generalizing ts nr with
  | nil =>
    have hnil : removeComponents (seqNil T) ts nr = (ts, nr) := by
      cases T <;> rfl
    rw [show strList T [] = seqNil T from rfl, hnil, letterCount, letterCount, letterCount,
      List.flatMap_nil, List.count_nil, Nat.zero_add]
  | cons z zs ih =>
    have hcons : removeComponents (strList T (z :: zs)) ts nr =
        removeComponents (strList T zs) (ts.erase z) (if ts = ts.erase z then z :: nr else nr) :=
      rfl
    rw [hcons, letterCount_cons]
    have hrec := @ih (ts.erase z) (if ts = ts.erase z then z :: nr else nr)
    by_cases hz : z ∈ ts
    swap
    · rw [List.erase_of_not_mem hz, if_pos rfl] at hrec ⊢
      rw [letterCount_cons] at hrec
      omega
    have hne : ts ≠ ts.erase z := by
      intro heq
      have hlen := congrArg List.length heq
      rw [List.length_erase_of_mem hz] at hlen
      have := List.length_pos_of_mem hz
      omega
    rw [if_neg hne] at hrec ⊢
    have herase := letterCount_erase (I := I) (T := T) (x := x) hz
    omega

/-- The comparisons that decide that a component is distinct from the rest of a multiset are
between letters. -/
def DecidesOnLetters (Γ : Nat → Ty) (xs : List Term) : List Term → Prop
  | [] => True
  | s :: nr =>
    (areDistinctTermsListRec Γ s xs = some true → IsLetter Γ s ∧ ∀ x ∈ xs, IsLetter Γ x) ∧
      (areDistinctTermsListRec Γ s xs = some false → DecidesOnLetters Γ xs nr)

variable {xs : List Term}

lemma areDistinctTerms_of_list (h : areDistinctTermsListRec Γ s xs = some true) :
    ∀ z ∈ xs, areDistinctTerms Γ s z = some true := by
  induction xs with
  | nil => exact fun z hz => absurd hz not_mem_nil
  | cons y xs ih =>
    obtain ⟨b, hb, h⟩ := bind_inv h
    split at h
    swap
    · cases h
    rename_i hbt
    intro z hz
    rcases mem_cons.1 hz with rfl | hz
    · rw [hb, hbt]
    · exact ih h z hz

lemma exists_of_someDistinctFrom {nr : List Term} (hok : DecidesOnLetters Γ xs nr)
    (h : someDistinctFrom Γ xs nr = some true) :
    ∃ z ∈ nr, IsLetter Γ z ∧ ∀ y ∈ xs, IsLetter Γ y ∧ areDistinctTerms Γ z y = some true := by
  induction nr with
  | nil => cases h
  | cons z nr ih =>
    obtain ⟨b, hb, h⟩ := bind_inv h
    obtain ⟨S, _, hb⟩ := bind_inv hb
    split at h
    · rename_i hbt
      rw [hbt] at hb
      obtain ⟨hz, hxs⟩ := hok.1 hb
      exact ⟨z, .head _, hz, fun y hy =>
        ⟨hxs y hy, areDistinctTerms_of_list hb y hy⟩⟩
    rename_i hbf
    rw [Bool.not_eq_true] at hbf
    rw [hbf] at hb
    obtain ⟨y, hy, hrest⟩ := ih (hok.2 hb) h
    exact ⟨y, .tail _ hy, hrest⟩

lemma letterCount_eq_zero {z : Term} (hz : IsLetter Γ z) (hzv : SeqVal I T z [x])
    (hxs : ∀ y ∈ xs, IsLetter Γ y ∧ areDistinctTerms Γ z y = some true) :
    letterCount I T x xs = 0 := by
  refine List.count_eq_zero_of_not_mem fun hmem => ?_
  obtain ⟨y, hy, hxy⟩ := List.mem_flatMap.1 hmem
  obtain ⟨hyl, hdist⟩ := hxs y hy
  unfold seqWord at hxy
  split at hxy
  swap
  · exact absurd hxy not_mem_nil
  rename_i hex
  have hyv := hex.choose_spec
  obtain ⟨p, hp⟩ := exists_letter hyl.1 hyv
  rw [hp, mem_singleton] at hxy
  rw [hp, ← hxy] at hyv
  exact ne_of_areDistinctTerms hz hyl hdist hzv hyv rfl

lemma mem_removeComponents {zs nr : List Term} {z : Term}
    (h : z ∈ (removeComponents (strList T zs) xs nr).2) : z ∈ zs ∨ z ∈ nr := by
  induction zs generalizing xs nr with
  | nil =>
    have hnil : removeComponents (seqNil T) xs nr = (xs, nr) := by
      cases T <;> rfl
    rw [show strList T [] = seqNil T from rfl, hnil] at h
    exact .inr h
  | cons y zs ih =>
    rcases ih (show z ∈ (removeComponents (strList T zs) (xs.erase y)
      (if xs = xs.erase y then y :: nr else nr)).2 from h) with hz | hz
    · exact .inl (.tail _ hz)
    split at hz
    · rcases mem_cons.1 hz with rfl | hz
      · exact .inl (.head _)
      · exact .inr hz
    · exact .inr hz

/-- The components of a string and their letters. -/
lemma dirReads_spec {zs : List Term} {y : List (Dom I.U T)} (h : DirReads I T false zs y) :
    (∀ z ∈ zs, ∃ l, SeqVal I T z l) ∧ zs.flatMap (seqWord I T) = y := by
  induction zs generalizing y with
  | nil => exact ⟨fun z hz => absurd hz not_mem_nil, h.symm⟩
  | cons z zs ih =>
    obtain ⟨_, q, ⟨l, hl, hp⟩, hq, rfl⟩ := h
    obtain ⟨hval, hword⟩ := ih hq
    constructor
    · intro w hw
      rcases mem_cons.1 hw with rfl | hw
      · exact ⟨l, hl⟩
      · exact hval w hw
    · rw [List.flatMap_cons, seqWord_eq hl, hword, hp]
      rfl

lemma sat_strCtnMultisetSubset {G : Term} (hty : typeof Γ G = some .bool)
    (hok : ∀ u ∈ strToFlatForm Γ s false,
      DecidesOnLetters Γ (removeComponents u (strMultisetOverapprox t) []).1
        (removeComponents u (strMultisetOverapprox t) []).2)
    (h : strCtnMultisetSubset Γ t s = some G) : Sat I G := by
  obtain ⟨u, hu, h⟩ := bind_inv h
  obtain ⟨b, hb, h⟩ := bind_inv h
  obtain ⟨rfl, h⟩ := eoRequires_eq_some.1 h
  cases h
  have hok := hok u hu
  obtain ⟨v, hv⟩ := value_lhs (I := I) hty
  obtain ⟨T, w, y, ht, hs, _⟩ := value_contains.1 hv
  refine (boolVal_eq (boolVal_contains ht hs) (boolVal_bool false)).sat.2 ?_
  refine iff_of_false (fun hin => ?_) Bool.false_ne_true
  obtain ⟨z, hz, hzl, hdist⟩ := exists_of_someDistinctFrom hok hb
  -- the components of the flat form
  obtain ⟨_, zs, -, -, rfl, hreads⟩ := strToFlatForm_spec hs hu
  obtain ⟨hval, hword⟩ := dirReads_spec hreads
  obtain ⟨l, hl⟩ := hval z ((mem_removeComponents hz).resolve_right not_mem_nil)
  obtain ⟨x, rfl⟩ := exists_letter hzl.1 hl
  -- the letter occurs more often in the component than the rest of `t` allows
  have hbal := letterCount_removeComponents I x (strMultisetOverapprox t) []
    (dirWord false (zs.flatMap flatElems))
  rw [letterCount_eq_zero hzl hl hdist] at hbal
  have hy : letterCount I T x (dirWord false (zs.flatMap flatElems)) = y.count x := by
    rw [letterCount, hword]
    rfl
  have hsub : y.count x ≤ w.count x := hin.sublist.count_le x
  have hover : w.count x ≤ letterCount I T x (strMultisetOverapprox t) := count_le_overapprox ht
  have hpos : 0 < letterCount I T x (removeComponents (strList T (dirWord false
      (zs.flatMap flatElems))) (strMultisetOverapprox t) []).2 := by
    refine List.count_pos_iff.2 (List.mem_flatMap.2 ⟨z, hz, ?_⟩)
    rw [seqWord_eq hl]
    exact List.mem_singleton_self x
  have hnil : letterCount I T x [] = 0 := rfl
  omega

end Multisets

/-! ## All rules -/

/-- The steps that use reported distinctness of letters only. -/
def ContainsStep.OnLetters (Γ : Nat → Ty) : ContainsStep → Prop
  | .multisetSubset t s => ∀ u ∈ strToFlatForm Γ s false,
      DecidesOnLetters Γ (removeComponents u (strMultisetOverapprox t) []).1
        (removeComponents u (strMultisetOverapprox t) []).2
  | .overlapSplitCtn _ c _ d _ => OverlapsLetters Γ c d false ∧ OverlapsLetters Γ d c false
  | .overlapEndpointsCtn c1 _ c2 d1 _ d2 _ =>
    OverlapsLetters Γ c1 d1 false ∧ OverlapsLetters Γ c2 d2 true
  | .overlapEndpointsIndexof _ c _ d _ => OverlapsLetters Γ c d true
  | .overlapEndpointsReplace c1 _ c2 d1 _ d2 _ _ =>
    OverlapsLetters Γ c1 d1 false ∧ OverlapsLetters Γ c2 d2 true

end EthosCpc
