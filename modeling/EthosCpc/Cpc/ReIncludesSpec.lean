import EthosCpc.Cpc.ReIncludes
import EthosCpc.Cpc.StringsSpec

/-!
# Soundness of the inclusion of regular expressions

`$str_re_includes r1 r3` answers `true` only if the language of `r3` is part
of the language of `r1`.  The five programs are proved sound together, by
induction on the number of calls.

A membership of a literal is decided by derivatives, which are right for the
core operators only, so the proof also keeps track of the operators in `r1`:
`FlatCore` is what becomes of a core expression in flat form.
-/

namespace EthosCpc

open Term (bop uop)
open Library Computability
open Option (some.inj)

variable {Γ : Nat → Ty} {I : Interp Γ} {a b r r1 r2 r3 r4 s t u : Term} {A B L : RegLan}

/-! ## Operators in flat form -/

/-- A concatenation of literals. -/
inductive WordTerm : Term → Prop
  | str (s : Str) : WordTerm (.str s)
  | concat {s t : Term} : WordTerm s → WordTerm t → WordTerm (bop .strConcat s t)

/-- A list of core expressions and of the flat forms of literals. -/
inductive FlatCore : Term → Prop
  | core {r : Term} : CoreRe r → FlatCore r
  | word {s r : Term} : WordTerm s → FlatCore r → FlatCore (bop .reConcat (uop .strToRe s) r)
  | elem {a r : Term} : CoreRe a → FlatCore r → FlatCore (bop .reConcat a r)

lemma WordTerm.exists_strVal (I : Interp Γ) (h : WordTerm t) : ∃ w, StrVal I t w := by
  induction h with
  | str s => exact ⟨s, rfl⟩
  | concat _ _ ihs iht =>
    obtain ⟨x, hx⟩ := ihs
    obtain ⟨y, hy⟩ := iht
    exact ⟨x ++ y, strVal_concat.2 ⟨x, y, hx, hy, rfl⟩⟩

lemma wordTerm_prepend {xs : List Term} :
    WordTerm (prependNAryChildren (.sym .strConcat) (.str []) xs) ↔ ∀ x ∈ xs, WordTerm x := by
  induction xs with
  | nil => exact ⟨fun _ x hx => absurd hx List.not_mem_nil, fun _ => .str []⟩
  | cons x xs ih =>
    rw [prependNAryChildren_cons, List.forall_mem_cons, ← ih]
    constructor
    · intro h
      cases h with
      | concat hx hxs => exact ⟨hx, hxs⟩
    · rintro ⟨hx, hxs⟩
      exact .concat hx hxs

section Words

variable (I) (ht : WordTerm t)

include I ht

lemma strNil_wordTerm (h : (typeof Γ t).bind seqEmpty = some u) : u = .str [] := by
  obtain ⟨w, hw⟩ := ht.exists_strVal I
  exact seqEmpty_typeof (T := .char) hw h

lemma wordTerm_strNaryIntro (h : strNaryIntro Γ t = some u) : WordTerm u := by
  unfold strNaryIntro at h
  split at h
  · cases h
    exact ht
  obtain ⟨nil, hnil, rfl⟩ := map_inv h
  obtain rfl := strNil_wordTerm I ht hnil
  split
  · exact ht
  · exact .concat ht (.str [])

lemma wordTerm_listConcat (hu : WordTerm u) (h : listConcat Γ .strConcat t u = some s) :
    WordTerm s := by
  obtain ⟨nil, hnil, h⟩ := bind_inv h
  obtain rfl := strNil_wordTerm I ht hnil
  obtain ⟨xs, ys, hxs, hys, rfl⟩ := eoListConcat_spec h
  rw [eq_of_getNAryChildren hxs, wordTerm_prepend] at ht
  rw [eq_of_getNAryChildren hys, wordTerm_prepend] at hu
  rw [wordTerm_prepend]
  intro x hx
  rcases List.mem_append.1 hx with hx | hx
  · exact ht x hx
  · exact hu x hx

end Words

lemma wordTerm_strFlattenWord (s : Str) : WordTerm (strFlattenWord s) := by
  induction s with
  | nil => exact .str []
  | cons c s ih => exact .concat (.str [c]) ih

lemma wordTerm_strFlatten (I : Interp Γ) (ht : WordTerm t) (h : strFlatten Γ t = some u) :
    WordTerm u := by
  induction ht generalizing u with
  | str s =>
    rw [strFlatten_of_not_isBop rfl] at h
    obtain ⟨nil, _, h⟩ := bind_inv h
    split at h
    · cases h
      exact .str s
    · cases h
  | concat hs _ _ iht =>
    obtain ⟨v, hv, h⟩ := bind_inv h
    split at h
    · split at h
      · exact wordTerm_listConcat I (wordTerm_strFlattenWord _) (iht hv) h
      · cases h
        exact .concat hs (iht hv)
    · cases h
      exact .concat hs (iht hv)

lemma coreRe_reNaryIntro (hr : CoreRe r) : CoreRe (reNaryIntro r) := by
  unfold reNaryIntro
  split
  · exact hr
  split
  · exact hr
  · exact .list (.inl rfl) hr (.toRe [])

lemma coreRe_list_inv {f : Sym} (hf : IsReList f) (h : CoreRe (bop f a b)) :
    CoreRe a ∧ CoreRe b := by
  cases h with
  | range => rcases hf with hf | hf | hf <;> contradiction
  | list _ ha hb => exact ⟨ha, hb⟩

lemma coreRe_concat_inv (h : CoreRe (bop .reConcat a b)) : CoreRe a ∧ CoreRe b :=
  coreRe_list_inv (.inl rfl) h

lemma coreRe_star_inv (h : CoreRe (uop .reStar a)) : CoreRe a := by
  cases h with
  | star h => exact h

lemma coreRe_strToRe_inv (h : CoreRe (uop .strToRe s)) : ∃ w, s = .str w := by
  cases h with
  | toRe w => exact ⟨w, rfl⟩

lemma flatCore_reStrMap (I : Interp Γ) (hr : CoreRe r)
    (h : reStrToFlatForm Γ false r = some u) : FlatCore u := by
  unfold reStrToFlatForm at h
  induction r using listInduction .reConcat generalizing u with
  | base r hb =>
    rw [reStrMap_of_not_isBop hb] at h
    cases h
    exact .core hr
  | step a b ih =>
    obtain ⟨ha, hb⟩ := coreRe_concat_inv hr
    unfold reStrMap at h
    split at h
    swap
    · obtain ⟨w, hw, rfl⟩ := map_inv h
      exact .elem ha (ih hb hw)
    obtain ⟨v, hv, h⟩ := bind_inv h
    obtain ⟨w, hw, rfl⟩ := map_inv h
    obtain ⟨c, rfl⟩ := coreRe_strToRe_inv ha
    obtain ⟨p, hp, hv⟩ := bind_inv hv
    obtain ⟨q, hq, hv⟩ := bind_inv hv
    cases hv
    exact .word (wordTerm_strFlatten I (wordTerm_strNaryIntro I (.str c) hp) hq) (ih hb hw)

lemma flatCore_reToFlatForm (I : Interp Γ) (hr : CoreRe r)
    (h : reToFlatForm Γ r false = some u) : FlatCore u :=
  flatCore_reStrMap I (coreRe_reNaryIntro hr) h

lemma strFromFlatForm_str {w : Str} (h : strFromFlatForm Γ (.str w) false = some u) :
    u = .str w := by
  have hself : ∀ {v : Term}, strSelfIfEmpty Γ (.str w) = some v → v = .str w := by
    intro v hv
    obtain ⟨nil, _, hv⟩ := bind_inv hv
    split at hv
    · exact (some.inj hv).symm
    · cases hv
  obtain ⟨v, hv, h⟩ := bind_inv h
  obtain ⟨p, hp, h⟩ := bind_inv h
  cases hv
  obtain rfl := hself hp
  exact hself h

lemma coreRe_reStrFromFlatForm (hr : CoreRe r)
    (h : reStrFromFlatForm Γ false r = some u) : CoreRe u := by
  unfold reStrFromFlatForm at h
  induction r using listInduction .reConcat generalizing u with
  | base r hb =>
    rw [reStrMap_of_not_isBop hb] at h
    cases h
    exact hr
  | step a b ih =>
    obtain ⟨ha, hb⟩ := coreRe_concat_inv hr
    unfold reStrMap at h
    split at h
    swap
    · obtain ⟨w, hw, rfl⟩ := map_inv h
      exact .list (.inl rfl) ha (ih hb hw)
    obtain ⟨v, hv, h⟩ := bind_inv h
    obtain ⟨w, hw, rfl⟩ := map_inv h
    obtain ⟨c, rfl⟩ := coreRe_strToRe_inv ha
    obtain rfl := strFromFlatForm_str hv
    exact .list (.inl rfl) ha (ih hb hw)

lemma coreRe_reFromFlatForm (hr : CoreRe r) (h : reFromFlatForm Γ r false = some u) : CoreRe u := by
  obtain ⟨p, hp, rfl⟩ := map_inv h
  obtain ⟨q, hq, hp⟩ := bind_inv hp
  cases hp
  have hcore := coreRe_reStrFromFlatForm hr hq
  unfold reNaryElim
  split
  · split
    · exact (coreRe_concat_inv hcore).1
    · exact hcore
  · exact hcore

lemma flatCore_inv (h : FlatCore (bop .reConcat a b)) :
    (CoreRe a ∨ ∃ s, a = uop .strToRe s ∧ WordTerm s) ∧ FlatCore b := by
  cases h with
  | core h =>
    obtain ⟨ha, hb⟩ := coreRe_concat_inv h
    exact ⟨.inl ha, .core hb⟩
  | word hs hb => exact ⟨.inr ⟨_, rfl, hs⟩, hb⟩
  | elem ha hb => exact ⟨.inl ha, hb⟩

lemma flatCore_word_inv (h : FlatCore (bop .reConcat (uop .strToRe s) b)) :
    WordTerm s ∧ FlatCore b := by
  obtain ⟨ha | ⟨s, heq, hs⟩, hb⟩ := flatCore_inv h
  · obtain ⟨w, rfl⟩ := coreRe_strToRe_inv ha
    exact ⟨.str w, hb⟩
  · cases heq
    exact ⟨hs, hb⟩

/-- An element whose string is not a list is a core expression. -/
lemma coreRe_of_flatCore (h : FlatCore (bop .reConcat a b))
    (hno : ∀ s t, a ≠ uop .strToRe (bop .strConcat s t)) : CoreRe a := by
  obtain ⟨ha | ⟨s, rfl, hs⟩, -⟩ := flatCore_inv h
  · exact ha
  cases hs with
  | str w => exact .toRe w
  | concat => exact absurd rfl (hno _ _)

/-! ## Languages -/

/-- Anything may be put in front of a word of a language that starts with a wildcard. -/
lemma append_mem_of_unboundWildcard (h : reIsUnboundWildcard r = true) (hr : ReVal I r L)
    (w v : Str) (hv : v ∈ L) : w ++ v ∈ L := by
  induction r using reIsUnboundWildcard.induct generalizing L w v with
  | case1 r =>
    obtain ⟨A, B, hA, hB, rfl⟩ := reVal_concat.1 hr
    obtain ⟨x, -, y, hy, rfl⟩ := hv
    obtain ⟨C, hC, rfl⟩ := reVal_star.1 hA
    rw [reVal_allchar.1 hC]
    exact ⟨w ++ x, mem_sigmaStar (w ++ x), y, hy, List.append_assoc w x y⟩
  | case2 r ih =>
    obtain ⟨A, B, hA, hB, rfl⟩ := reVal_concat.1 hr
    obtain ⟨x, hx, y, hy, rfl⟩ := hv
    rw [reVal_allchar.1 hA] at hx ⊢
    obtain ⟨c, rfl⟩ := List.length_eq_one_iff.1 hx
    cases w with
    | nil => exact ⟨[c], hx, y, hy, rfl⟩
    | cons d w =>
      refine ⟨[d], rfl, w ++ [c] ++ y, ih h hB (w ++ [c]) y hy, ?_⟩
      simp
  | case3 r h1 h2 =>
    rw [reIsUnboundWildcard] at h
    · contradiction
    all_goals assumption

lemma reRange_le_of_includes {s1 s2 s3 s4 : Term}
    (hA : ReVal I (bop .reRange s1 s2) A) (hB : ReVal I (bop .reRange s3 s4) B)
    (h : reRangeIncludes s1 s2 s3 s4 = some true) : B ≤ A := by
  obtain ⟨z1, hz1, h⟩ := bind_inv h
  obtain ⟨z2, hz2, h⟩ := bind_inv h
  obtain ⟨z3, hz3, h⟩ := bind_inv h
  obtain ⟨z4, hz4, h⟩ := bind_inv h
  obtain ⟨_, h⟩ := eoRequires_eq_some.1 h
  obtain ⟨_, h⟩ := eoRequires_eq_some.1 h
  obtain ⟨_, h⟩ := eoRequires_eq_some.1 h
  obtain ⟨_, h⟩ := eoRequires_eq_some.1 h
  obtain ⟨x1, x2, h1, h2, rfl⟩ := reVal_range.1 hA
  obtain ⟨x3, x4, h3, h4, rfl⟩ := reVal_range.1 hB
  obtain ⟨c1, rfl, rfl⟩ := str_of_eoToZ hz1 h1
  obtain ⟨c2, rfl, rfl⟩ := str_of_eoToZ hz2 h2
  obtain ⟨c3, rfl, rfl⟩ := str_of_eoToZ hz3 h3
  obtain ⟨c4, rfl, rfl⟩ := str_of_eoToZ hz4 h4
  simp only [compareGeq, Option.some.injEq, Bool.and_eq_true, Bool.or_eq_true,
    decide_eq_true_eq] at h
  rintro w ⟨c, rfl, hlo, hhi⟩
  rw [Fin.le_def] at hlo hhi
  refine ⟨c, rfl, Fin.le_def.2 ?_, Fin.le_def.2 ?_⟩
  · omega
  · omega

lemma reVal_split_word {s1 s2 : Term}
    (h : ReVal I (bop .reConcat (uop .strToRe (bop .strConcat s1 s2)) r) L) :
    ReVal I (bop .reConcat (uop .strToRe s1) (bop .reConcat (uop .strToRe s2) r)) L := by
  obtain ⟨A, B, hA, hB, rfl⟩ := reVal_concat.1 h
  obtain ⟨w, hw, rfl⟩ := reVal_strToRe.1 hA
  obtain ⟨x, y, hx, hy, rfl⟩ := strVal_concat.1 hw
  refine reVal_concat.2 ⟨_, _, reVal_strToRe.2 ⟨x, hx, rfl⟩,
    reVal_concat.2 ⟨_, _, reVal_strToRe.2 ⟨y, hy, rfl⟩, hB, rfl⟩, ?_⟩
  ext w
  constructor
  · rintro ⟨_, rfl, v, hv, rfl⟩
    exact ⟨x, rfl, y ++ v, ⟨y, rfl, v, hv, rfl⟩, (List.append_assoc x y v).symm⟩
  · rintro ⟨_, rfl, _, ⟨_, rfl, v, hv, rfl⟩, rfl⟩
    exact ⟨_, rfl, v, hv, List.append_assoc _ _ v⟩

lemma reVal_drop_empty (h : ReVal I (bop .reConcat reEmpty r) L) : ReVal I r L := by
  obtain ⟨A, B, hA, hB, rfl⟩ := reVal_concat.1 h
  rw [reVal_empty.1 hA, one_mul]
  exact hB

lemma orElse_eq_true {c e : Option Bool} :
    orElse c e = some true ↔ c = some true ∨ c = some false ∧ e = some true := by
  rcases c with _ | _ | _ <;> simp [orElse]

lemma andThen_eq_true {c e : Option Bool} :
    andThen c e = some true ↔ c = some true ∧ e = some true := by
  rcases c with _ | _ | _ <;> simp [andThen]

/-! ## The five programs -/

/-- An answer `true` is right. -/
def Includes (I : Interp Γ) (core : Term → Prop) (p : Term → Term → Option Bool) : Prop :=
  ∀ r1 r3 A B, core r1 → ReVal I r1 A → ReVal I r3 B → p r1 r3 = some true → B ≤ A

/-- All programs are right when `k` calls are allowed. -/
structure IncludesSound (I : Interp Γ) (k : Nat) : Prop where
  includes : Includes I CoreRe (strReIncludes Γ k)
  lhsUnion : Includes I CoreRe (strReIncludesLhsUnion Γ k)
  rhsInter : Includes I CoreRe (strReIncludesRhsInter Γ k)
  lhsStar : Includes I CoreRe (strReIncludesLhsStar Γ k)
  includesRec : Includes I FlatCore (strReIncludesRec Γ k)

section Step

variable {k : Nat} (ih : IncludesSound I k)

include ih

lemma lhsUnion_sound : Includes I CoreRe (strReIncludesLhsUnion Γ (k + 1)) := by
  intro r1 r3 A B hcore hA hB h
  unfold strReIncludesLhsUnion at h
  split at h
  · cases h
  · rename_i heq
    cases heq
    obtain ⟨C, D, hC, hD, rfl⟩ := reVal_union.1 hA
    obtain ⟨h1, h2⟩ := coreRe_list_inv (.inr (.inl rfl)) hcore
    rcases orElse_eq_true.1 h with h | ⟨-, h⟩
    · exact fun w hw => .inl (ih.includes _ _ _ _ h1 hC hB h hw)
    · exact fun w hw => .inr (ih.lhsUnion _ _ _ _ h2 hD hB h hw)
  · cases h

lemma rhsInter_sound : Includes I CoreRe (strReIncludesRhsInter Γ (k + 1)) := by
  intro r1 r3 A B hcore hA hB h
  unfold strReIncludesRhsInter at h
  split at h
  · cases h
  · rename_i heq
    cases heq
    obtain ⟨C, D, hC, hD, rfl⟩ := reVal_inter.1 hB
    rcases orElse_eq_true.1 h with h | ⟨-, h⟩
    · exact fun w hw => ih.includes _ _ _ _ hcore hA hC h hw.1
    · exact fun w hw => ih.rhsInter _ _ _ _ hcore hA hD h hw.2
  · cases h

lemma lhsStar_sound : Includes I CoreRe (strReIncludesLhsStar Γ (k + 1)) := by
  intro r1 r3 A B hcore hA hB h
  unfold strReIncludesLhsStar at h
  split at h
  · cases h
  · rename_i heq
    cases heq
    obtain ⟨C, hC, rfl⟩ := reVal_star.1 hA
    have h1 := coreRe_star_inv hcore
    split at h
    · rename_i hall
      rw [hall, reVal_allchar] at hC
      rw [hC]
      exact fun w _ => mem_sigmaStar w
    unfold strMaybeGetStarBody at h
    split at h
    swap
    · exact le_trans (ih.includes _ _ _ _ h1 hC hB h) le_kstar
    obtain ⟨D, hD, rfl⟩ := reVal_star.1 hB
    have hle := ih.includes _ _ _ _ h1 hC hD h
    intro w hw
    obtain ⟨S, rfl, hS⟩ := Language.mem_kstar.1 hw
    exact Language.join_mem_kstar fun v hv => hle (hS v hv)
  · cases h

lemma includes_sound : Includes I CoreRe (strReIncludes Γ (k + 1)) := by
  intro r1 r3 A B hcore hA hB h
  unfold strReIncludes at h
  split at h
  · rename_i heq
    rw [heq] at hA
    exact (hA.unique hB).ge
  split at h
  · rename_i s1 _
    obtain ⟨w, hw, rfl⟩ := reVal_strToRe.1 hB
    have hsat := sat_strInReEval (I := I) (s := s1) (r := r1) (inReReads_of_core hcore) hw hA
      (congrArg (Option.map _) h)
    rintro v rfl
    exact (boolVal_eq (boolVal_inRe hw hA) (boolVal_bool true)).sat.1 hsat |>.mpr rfl
  · cases h
  · exact reRange_le_of_includes hA hB h
  rcases orElse_eq_true.1 h with h | ⟨-, h⟩
  · exact ih.lhsUnion _ _ _ _ hcore hA hB h
  rcases orElse_eq_true.1 h with h | ⟨-, h⟩
  · exact ih.rhsInter _ _ _ _ hcore hA hB h
  rcases orElse_eq_true.1 h with h | ⟨-, h⟩
  · exact ih.lhsStar _ _ _ _ hcore hA hB h
  split at h
  swap
  · cases h
  obtain ⟨p, hp, h⟩ := bind_inv h
  obtain ⟨q, hq, h⟩ := bind_inv h
  exact ih.includesRec _ _ _ _ (flatCore_reToFlatForm I hcore hp)
    (reReads_false.1 (reReads_reToFlatForm hA hp))
    (reReads_false.1 (reReads_reToFlatForm hB hq)) h

/-- Concatenations are compared from the front.  A wildcard on the left-hand side stays while
components on the right-hand side are skipped. -/
lemma includesRec_sound : Includes I FlatCore (strReIncludesRec Γ (k + 1)) := by
  intro r1 r3 A B hcore hA hB h
  unfold strReIncludesRec at h
  split at h
  · rename_i heq
    rw [heq] at hA
    exact (hA.unique hB).ge
  split at h
  · obtain ⟨hword, hrest⟩ := flatCore_word_inv hcore
    cases hword with
    | concat hs ht =>
      exact ih.includesRec _ _ _ _ (.word hs (.word ht hrest)) (reVal_split_word hA) hB h
  · obtain ⟨_, hrest⟩ := flatCore_word_inv hcore
    exact ih.includesRec _ _ _ _ hrest (reVal_drop_empty hA) hB h
  · exact ih.includesRec _ _ _ _ hcore hA (reVal_split_word hB) h
  · exact ih.includesRec _ _ _ _ hcore hA (reVal_drop_empty hB) h
  · rename_i r1 r2 r3 r4 hno _ _ _ _
    obtain ⟨_, hrest⟩ := flatCore_inv hcore
    have hhead : CoreRe r1 := coreRe_of_flatCore hcore hno
    obtain ⟨A1, A2, hA1, hA2, rfl⟩ := reVal_concat.1 hA
    obtain ⟨B1, B2, hB1, hB2, rfl⟩ := reVal_concat.1 hB
    rcases orElse_eq_true.1 h with h | ⟨-, h⟩
    · -- both components are skipped
      obtain ⟨hincl, h⟩ := andThen_eq_true.1 h
      obtain ⟨p, hp, hincl⟩ := bind_inv hincl
      obtain ⟨q, hq, hincl⟩ := bind_inv hincl
      have hle := ih.includes _ _ _ _ (coreRe_reFromFlatForm hhead hp)
        (reVal_reFromFlatForm (reReads_false.2 hA1) hp)
        (reVal_reFromFlatForm (reReads_false.2 hB1) hq) hincl
      have hle' := ih.includesRec _ _ _ _ hrest hA2 hB2 h
      rintro w ⟨x, hx, y, hy, rfl⟩
      exact ⟨x, hle hx, y, hle' hy, rfl⟩
    rcases orElse_eq_true.1 h with h | ⟨-, h⟩
    · -- the wildcard absorbs a component
      obtain ⟨hwild, h⟩ := andThen_eq_true.1 h
      have hle := ih.includesRec _ _ _ _ hcore hA hB2 h
      rintro w ⟨x, -, y, hy, rfl⟩
      exact append_mem_of_unboundWildcard (some.inj hwild) hA x y (hle hy)
    -- the wildcard is empty
    obtain ⟨hstar, h⟩ := andThen_eq_true.1 h
    have hle := ih.includesRec _ _ _ _ hrest hA2 hB h
    rw [of_decide_eq_true (some.inj hstar)] at hA1
    obtain ⟨C, -, rfl⟩ := reVal_star.1 hA1
    intro w hw
    exact ⟨[], Language.nil_mem_kstar C, w, hle hw, rfl⟩
  · have h := some.inj h
    rw [Bool.and_eq_true, decide_eq_true_eq, decide_eq_true_eq] at h
    obtain ⟨A1, A2, hA1, hA2, rfl⟩ := reVal_concat.1 hA
    rw [h.1] at hA1
    rw [h.2, reVal_empty] at hA2
    obtain ⟨C, -, rfl⟩ := reVal_star.1 hA1
    rw [reVal_empty.1 hB, hA2, mul_one]
    rintro w rfl
    exact Language.nil_mem_kstar C
  · cases h

end Step

lemma includesSound (I : Interp Γ) (k : Nat) : IncludesSound I k := by
  induction k with
  | zero => refine ⟨?_, ?_, ?_, ?_, ?_⟩ <;> (intro r1 r3 A B _ _ _ h; contradiction)
  | succ k ih =>
    exact ⟨includes_sound ih, lhsUnion_sound ih, rhsInter_sound ih, lhsStar_sound ih,
      includesRec_sound ih⟩

/-! ## The rules -/

/-- If `$str_re_includes r1 r2` answers `true` for core expressions, then the language of `r2`
is part of the one of `r1`, and the two rules that ask it conclude valid equalities. -/
theorem reIncludes_sound (Γ : Nat → Ty) (I : Interp Γ) (k : Nat) {r1 r2 : Term}
    (h1 : CoreRe r1) (h2 : CoreRe r2) (hty1 : typeof Γ r1 = some .reglan)
    (hty2 : typeof Γ r2 = some .reglan) :
    (strReIncludes Γ k r1 r2 = some true → ∀ A B, ReVal I r1 A → ReVal I r2 B → B ≤ A) ∧
    (∀ G, reInterInclusion Γ k r1 r2 = some G → Sat I G) ∧
    (∀ G, reUnionInclusion Γ k r1 r2 = some G → Sat I G) := by
  obtain ⟨A, hA⟩ := reVal_of_typeof (I := I) hty1
  obtain ⟨B, hB⟩ := reVal_of_typeof (I := I) hty2
  refine ⟨fun h C D hC hD => (includesSound I k).includes _ _ _ _ h1 hC hD h, ?_, ?_⟩
  · intro G h
    obtain ⟨b, hb, h⟩ := bind_inv h
    obtain ⟨rfl, h⟩ := eoRequires_eq_some.1 h
    cases h
    have hle := (includesSound I k).includes _ _ _ _ h2 hB hA hb
    have hcomp : ReVal I (bop .reInter (uop .reComp r2) (.sym .reAll))
        (Bᶜ ∩ (⊤ : RegLan) : Set Str) :=
      reVal_inter.2 ⟨Bᶜ, (⊤ : RegLan), reVal_comp.2 ⟨B, hB, rfl⟩, reVal_all.2 rfl, rfl⟩
    refine sat_eq.2 ⟨_, reVal_inter.2 ⟨A, _, hA, hcomp, rfl⟩, reVal_none.2 ?_⟩
    ext w
    exact iff_of_false (fun hw => hw.2.1 (hle hw.1)) (Language.notMem_zero w)
  intro G h
  obtain ⟨b, hb, h⟩ := bind_inv h
  obtain ⟨rfl, h⟩ := eoRequires_eq_some.1 h
  cases h
  have hle := (includesSound I k).includes _ _ _ _ h1 hA hB hb
  have hcomp : ReVal I (bop .reUnion (uop .reComp r2) (.sym .reNone)) (Bᶜ + 0) :=
    reVal_union.2 ⟨Bᶜ, 0, reVal_comp.2 ⟨B, hB, rfl⟩, reVal_none.2 rfl, rfl⟩
  have hstar : ReVal I reSigmaStar (A + (Bᶜ + 0)) := by
    refine reVal_star.2 ⟨reAllchar, reVal_allchar.2 rfl, ?_⟩
    ext w
    refine iff_of_true ?_ (mem_sigmaStar w)
    by_cases hw : w ∈ B
    · exact .inl (hle hw)
    · exact .inr (.inl hw)
  exact sat_eq.2 ⟨_, reVal_union.2 ⟨A, _, hA, hcomp, rfl⟩, hstar⟩

/-- `(re.++ (re.* re.allchar) (str.to_re "a"))` includes `(re.++ re.allchar (str.to_re "ba"))`. -/
theorem reIncludes_sound_suffix : Sat (badInterp fun _ => .bool) (bop .eq
      (bop .reUnion (bop .reConcat reSigmaStar (bop .reConcat (uop .strToRe (.str [97])) reEmpty))
        (bop .reUnion (uop .reComp (bop .reConcat (.sym .reAllchar)
          (bop .reConcat (uop .strToRe (.str [98, 97])) reEmpty))) (.sym .reNone)))
      reSigmaStar) :=
  (reIncludes_sound _ (badInterp _) 9
    (.list (.inl rfl) (.star .allchar) (.list (.inl rfl) (.toRe [97]) (.toRe [])))
    (.list (.inl rfl) .allchar (.list (.inl rfl) (.toRe [98, 97]) (.toRe [])))
    rfl rfl).2.2 _ rfl

end EthosCpc
