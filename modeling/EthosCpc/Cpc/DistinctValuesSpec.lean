import EthosCpc.Cpc.DistinctValues

/-!
# Soundness of the test for distinct terms

Terms that `$are_distinct_terms` reports as distinct have different values
(`areDistinctTerms_sound`), provided the last pattern of
`$seq_distinct_terms` answers only about two lists of elements of which one
has ended.  The programs for sets, sequences and datatypes are treated for
an arbitrary test on elements that separates their values.
-/

namespace EthosCpc.Hol

open EthosCpc.Hol.Term (bop uop)
open Option (some.inj)
open List (Forall₂ mem_cons mem_cons_of_mem mem_cons_self)

variable {Γ : Sig} {I : Interp Γ} {ρ : Env I.U} {T : Ty} {t s : Term}

/-- What the test reports as distinct has different values, in the runs at hand. -/
def Separates (I : Interp Γ) (ρ : Env I.U) (distinct : Term → Term → Option Bool)
    (runs : Term → Term → Prop) : Prop :=
  ∀ {t s : Term} {T : Ty} {x y : Dom I.U T}, TermVal I ρ T t x → TermVal I ρ T s y →
    distinct t s = some true → runs t s → x ≠ y

section Elements

variable {distinct : Term → Term → Option Bool} {runs : Term → Term → Prop}

/-! ## Sets -/

variable {x : Dom I.U T}

lemma notMem_of_elemIsNotIn (hsep : Separates I ρ distinct runs) {e1 : Term}
    (hx : TermVal I ρ T e1 x) {B : Dom I.U (.set T)} (hB : TermVal I ρ (.set T) s B)
    (h : elemIsNotIn distinct e1 s = some true) (hruns : ElemRuns distinct runs e1 s) :
    x ∉ B.elems := by
  fun_induction elemIsNotIn distinct e1 s generalizing B with
  | case1 S =>
    rw [den_setEmpty_inv hB]
    exact Set.notMem_empty x
  | case2 e2 =>
    obtain ⟨y, hy, heq⟩ := den_setSingleton_inv hB
    rw [heq]
    exact hsep hx hy h hruns
  | case3 e2 ss ih =>
    obtain ⟨A, C, hA, hC, heq⟩ := den_setUnion_inv hB
    obtain ⟨y, hy, hA⟩ := den_setSingleton_inv hA
    obtain ⟨b, hb, h⟩ := bind_inv h
    cases b with
    | false => cases h
    | true =>
      have hne : x ≠ y := hsep hx hy hb hruns.1
      have hnot : x ∉ C.elems := ih hC h (hruns.2 hb)
      rw [heq, hA]
      exact fun hmem => hmem.elim hne hnot
  | case4 => contradiction

lemma exists_of_setIsNotSubset (hsep : Separates I ρ distinct runs)
    {A B : Dom I.U (.set T)} (hA : TermVal I ρ (.set T) t A) (hB : TermVal I ρ (.set T) s B)
    (h : setIsNotSubset distinct t s = some true) (hruns : SetRuns distinct runs t s) :
    ∃ x ∈ A.elems, x ∉ B.elems := by
  fun_induction setIsNotSubset distinct t s generalizing A B with
  | case1 => contradiction
  | case2 e1 s =>
    obtain ⟨x, hx, heq⟩ := den_setSingleton_inv hA
    exact ⟨x, by rw [heq]; exact Set.mem_singleton x, notMem_of_elemIsNotIn hsep hx hB h hruns⟩
  | case3 e1 ts s ih =>
    obtain ⟨C, D, hC, hD, heq⟩ := den_setUnion_inv hA
    obtain ⟨x, hx, hC⟩ := den_setSingleton_inv hC
    obtain ⟨b, hb, h⟩ := bind_inv h
    cases b with
    | true =>
      refine ⟨x, ?_, notMem_of_elemIsNotIn hsep hx hB hb hruns.1⟩
      rw [heq, hC]
      exact .inl (Set.mem_singleton x)
    | false =>
      obtain ⟨y, hy, hnot⟩ := ih hD hB h (hruns.2 hb)
      exact ⟨y, by rw [heq]; exact .inr hy, hnot⟩
  | case4 => contradiction

/-! ## Sequences -/

lemma termVal_of_seqNil {n : Term} (h : seqNil (.seq T) = some n) :
    TermVal I ρ (.seq T) n ([] : List (Dom I.U T)) := by
  unfold seqNil at h
  split at h
  · rename_i heq
    cases heq
    cases h
    rfl
  · rename_i heq
    cases heq
    cases h
    rfl
  · cases h

lemma type_of_termTy {S : Ty} (h : termTy Γ t = some S) (hx : TermVal I ρ T t x) : T = S := by
  unfold termTy at h
  split at h
  swap
  · cases h
  rename_i hty
  cases h
  obtain ⟨y, hy⟩ := termVal_of_hasTy I ρ hty
  exact hx.type hy

variable {l : List (Dom I.U T)}

lemma termVal_of_seqUnitIntro {u : Term}
    (h : seqUnitIntro Γ t = some u) (ht : TermVal I ρ (.seq T) t l) : TermVal I ρ (.seq T) u l := by
  unfold seqUnitIntro at h
  split at h
  swap
  · cases h
    exact ht
  obtain ⟨n, hn, rfl⟩ := map_inv h
  obtain ⟨S, hS, hn⟩ := bind_inv hn
  obtain rfl := type_of_termTy hS ht
  have hconcat := den_seqConcat ht (termVal_of_seqNil hn)
  rwa [List.append_nil] at hconcat

lemma nil_of_isSeqNil (ht : TermVal I ρ (.seq T) t l) (h : isSeqNil t = true) : l = [] := by
  unfold isSeqNil at h
  split at h
  · rename_i S
    obtain rfl := Ty.seq.inj (ht.type (den_seqEmpty S))
    exact ht.unique (den_seqEmpty T)
  · obtain rfl : T = .char := Ty.seq.inj (ht.type (S := .string) rfl)
    exact ht.unique rfl
  · cases h

lemma ne_nil_of_startsWithUnit (ht : TermVal I ρ (.seq T) t l)
    (h : startsWithUnit t = true) : l ≠ [] := by
  unfold startsWithUnit at h
  split at h
  · obtain ⟨x, y, hx, -, rfl⟩ := den_seqConcat_inv ht
    obtain ⟨e, -, rfl⟩ := den_seqUnit_inv hx
    exact List.cons_ne_nil e y
  · cases h

lemma ne_of_oneEnded {x y : List (Dom I.U T)} (ht : TermVal I ρ (.seq T) t x)
    (hs : TermVal I ρ (.seq T) s y) (h : OneEnded t s) : x ≠ y := by
  rcases h with ⟨hnil, hcons⟩ | ⟨hcons, hnil⟩
  · rw [nil_of_isSeqNil ht hnil]
    exact (ne_nil_of_startsWithUnit hs hcons).symm
  · rw [nil_of_isSeqNil hs hnil]
    exact ne_nil_of_startsWithUnit ht hcons

lemma ne_of_seqDistinctTerms (hsep : Separates I ρ distinct runs) :
    ∀ {k : Nat} {t s : Term} {x y : List (Dom I.U T)}, TermVal I ρ (.seq T) t x →
      TermVal I ρ (.seq T) s y → seqDistinctTerms Γ distinct k t s = some true →
        SeqRuns Γ distinct runs k t s → x ≠ y := by
  intro k
  induction k with
  | zero =>
    intro t s x y _ _ h
    contradiction
  | succ k ih =>
    intro t s x y ht hs h hruns
    obtain ⟨t', ht', h⟩ := bind_inv h
    obtain ⟨s', hs', h⟩ := bind_inv h
    have hx := termVal_of_seqUnitIntro ht' ht
    have hy := termVal_of_seqUnitIntro hs' hs
    have hruns' := hruns t' ht' s' hs'
    split at h
    · rename_i e1 ts e2 ss
      obtain ⟨u, x', hu, hx', rfl⟩ := den_seqConcat_inv hx
      obtain ⟨v, y', hv, hy', rfl⟩ := den_seqConcat_inv hy
      obtain ⟨a, ha, rfl⟩ := den_seqUnit_inv hu
      obtain ⟨b, hb, rfl⟩ := den_seqUnit_inv hv
      obtain ⟨r, hr, h⟩ := bind_inv h
      intro heq
      obtain ⟨hab, hxy⟩ := List.cons.inj heq
      cases r with
      | true => exact hsep ha hb hr hruns'.1 hab
      | false => exact ih hx' hy' h (hruns'.2 hr) hxy
    · rename_i hne
      split at hruns'
      · exact absurd rfl (hne _ _ _ _ rfl)
      · exact ne_of_oneEnded hx hy (hruns' (of_decide_eq_true (some.inj h)))

/-! ## Datatypes -/

lemma ne_of_somePairwiseDistinctTerm (hsep : Separates I ρ distinct runs) {ts ss : List Term}
    {vs ws : List (Val I.U)} (hts : Forall₂ (fun a v => den I a ρ = some (.val v)) ts vs)
    (hss : Forall₂ (fun a v => den I a ρ = some (.val v)) ss ws)
    (h : somePairwiseDistinctTerm distinct ts ss = some true)
    (hruns : PairRuns distinct runs ts ss) : vs ≠ ws := by
  induction hts generalizing ss ws with
  | nil =>
    cases hss with
    | nil => cases h
    | cons _ _ => contradiction
  | @cons t v ts vs ht hts ih =>
    cases hss with
    | nil => contradiction
    | @cons s w ss ws hs hss =>
      obtain ⟨b, hb, h⟩ := bind_inv h
      intro heq
      obtain ⟨hvw, hrest⟩ := List.cons.inj heq
      subst hvw
      cases b with
      | true => exact hsep (x := v.2) (y := v.2) ht hs hb hruns.1 rfl
      | false => exact ih hss h (hruns.2 hb) hrest

lemma ne_of_dtDistinctTerms (hsep : Separates I ρ distinct runs) {y : Dom I.U T}
    (ht : TermVal I ρ T t x) (hs : TermVal I ρ T s y) (h : dtDistinctTerms distinct t s = some true)
    (hruns : t.appHead = s.appHead → PairRuns distinct runs t.appArgs s.appArgs) : x ≠ y := by
  unfold dtDistinctTerms at h
  split at h
  swap
  · cases h
  rename_i hcons
  obtain ⟨hd, hh⟩ := Option.isSome_iff_exists.1 hcons
  obtain ⟨vs, hvs, hcon⟩ := den_con_inv hh ht
  rintro rfl
  split at h
  · rename_i heq
    obtain ⟨ws, hws, hcon'⟩ := den_con_inv (heq ▸ hh) hs
    rw [← heq] at hcon'
    exact ne_of_somePairwiseDistinctTerm hsep hvs hws h (hruns heq) (hcon.inj hcon')
  rename_i hne
  obtain ⟨hd', hh'⟩ := Option.isSome_iff_exists.1 (some.inj h)
  obtain ⟨ws, hws, hcon'⟩ := den_con_inv hh' hs
  exact hne (hcon.head_eq hcon')

end Elements

/-! ## All types -/

lemma separates_of_byType {byType : Term → Term → Ty → Option Bool} {runs : Term → Term → Ty → Prop}
    (h : ∀ {t s : Term} {T : Ty} {x y : Dom I.U T}, TermVal I ρ T t x → TermVal I ρ T s y →
      byType t s T = some true → runs t s T → x ≠ y) :
    Separates I ρ (distinctOf Γ byType) fun t s => ∀ T ∈ termTy Γ t, runs t s T := by
  intro t s T x y ht hs hd hruns
  unfold distinctOf at hd
  split at hd
  · cases hd
  obtain ⟨S, hS, hd⟩ := bind_inv hd
  obtain rfl := type_of_termTy hS ht
  exact h ht hs hd (hruns T hS)

lemma ne_of_literals {p : Term → Bool}
    (hlit : ∀ {t s : Term} {x : Dom I.U T}, p t = true → p s = true → TermVal I ρ T t x →
      TermVal I ρ T s x → t = s) {x y : Dom I.U T} (ht : TermVal I ρ T t x)
    (hs : TermVal I ρ T s y) (hne : t ≠ s) (h : some (p t && p s) = some true) : x ≠ y := by
  obtain ⟨hpt, hps⟩ := (Bool.and_eq_true _ _).mp (some.inj h)
  rintro rfl
  exact hne (hlit hpt hps ht hs)

lemma literal_isZ {x : Dom I.U .int} (ht : isZ t = true) (hs : isZ s = true)
    (h : TermVal I ρ .int t x) (h' : TermVal I ρ .int s x) : t = s := by
  cases t with
  | num a =>
    cases s with
    | num b =>
      cases h
      cases h'
      rfl
    | _ => contradiction
  | _ => contradiction

lemma literal_isQ {x : Dom I.U .real} (ht : isQ t = true) (hs : isQ s = true)
    (h : TermVal I ρ .real t x) (h' : TermVal I ρ .real s x) : t = s := by
  cases t with
  | rat a =>
    cases s with
    | rat b =>
      have ha : (a : ℝ) = x := (h.unique rfl).symm
      have hb : (b : ℝ) = x := (h'.unique rfl).symm
      rw [Rat.cast_injective (ha.trans hb.symm)]
    | _ => contradiction
  | _ => contradiction

lemma literal_isStr {x : Dom I.U .string} (ht : isStr t = true) (hs : isStr s = true)
    (h : TermVal I ρ .string t x) (h' : TermVal I ρ .string s x) : t = s := by
  cases t with
  | str a =>
    cases s with
    | str b =>
      cases h
      cases h'
      rfl
    | _ => contradiction
  | _ => contradiction

lemma literal_isBin {w : Nat} {x : Dom I.U (.bitvec w)} (ht : isBin t = true)
    (hs : isBin s = true) (h : TermVal I ρ (.bitvec w) t x) (h' : TermVal I ρ (.bitvec w) s x) :
    t = s := by
  cases t with
  | bin w a =>
    cases s with
    | bin w' b =>
      cases h
      cases h'
      rfl
    | _ => contradiction
  | _ => contradiction

lemma literal_isBool {x : Dom I.U .bool} (ht : isBool t = true) (hs : isBool s = true)
    (h : TermVal I ρ .bool t x) (h' : TermVal I ρ .bool s x) : t = s := by
  cases t with
  | bool a =>
    cases s with
    | bool b =>
      cases h
      cases h'
      rfl
    | _ => contradiction
  | _ => contradiction

lemma eq_true_of_boolOr {a b : Option Bool} (h : boolOr a b = some true) :
    a = some true ∨ b = some true := by
  unfold boolOr at h
  cases a <;> cases b <;> simp_all

lemma areDistinctTermsType_sound : ∀ {k : Nat} {t s : Term} {T : Ty} {x y : Dom I.U T},
    TermVal I ρ T t x → TermVal I ρ T s y → areDistinctTermsType Γ k t s T = some true →
      TypeRuns Γ k t s T → x ≠ y := by
  intro k
  induction k with
  | zero =>
    intro t s T x y _ _ h
    contradiction
  | succ k ih =>
    intro t s T x y ht hs h hruns
    have hsep : Separates I ρ (distinctOf Γ (areDistinctTermsType Γ k))
        fun t s => ∀ T ∈ termTy Γ t, TypeRuns Γ k t s T := separates_of_byType ih
    unfold areDistinctTermsType at h
    unfold TypeRuns at hruns
    split at h
    · cases h
    rename_i hne
    split at h
    · exact ne_of_literals literal_isZ ht hs hne h
    · exact ne_of_literals literal_isQ ht hs hne h
    · exact ne_of_literals literal_isStr ht hs hne h
    · exact ne_of_literals literal_isBin ht hs hne h
    · exact ne_of_literals literal_isBool ht hs hne h
    · rename_i S _
      rcases eq_true_of_boolOr h with h | h
      · obtain ⟨z, hz, hnot⟩ := exists_of_setIsNotSubset hsep ht hs h hruns.1
        rintro rfl
        exact hnot hz
      obtain ⟨z, hz, hnot⟩ := exists_of_setIsNotSubset hsep hs ht h hruns.2
      rintro rfl
      exact hnot hz
    · rename_i S hchar
      have hseq : SeqRuns Γ (distinctOf Γ (areDistinctTermsType Γ k))
          (fun t s => ∀ T ∈ termTy Γ t, TypeRuns Γ k t s T) (k + 1) t s := by
        cases S with
        | char => exact absurd rfl hchar
        | _ => exact hruns
      exact ne_of_seqDistinctTerms hsep ht hs h hseq
    rename_i h1 h2 _ h4 h5 h6 h7
    cases T with
    | int => exact absurd rfl h1
    | real => exact absurd rfl h2
    | bitvec w => exact absurd rfl (h4 w)
    | bool => exact absurd rfl h5
    | set S => exact absurd rfl (h6 S)
    | seq S => exact absurd rfl (h7 S)
    | _ => exact ne_of_dtDistinctTerms hsep ht hs h hruns

/-! ## Pairs and lists of terms -/

variable {k : Nat}

lemma areDistinctTerms_sound {x y : Dom I.U T} (ht : TermVal I ρ T t x)
    (hs : TermVal I ρ T s y) (h : areDistinctTerms Γ k t s = some true)
    (hruns : TermRuns Γ k t s) : x ≠ y :=
  separates_of_byType (fun h1 h2 h3 h4 => areDistinctTermsType_sound h1 h2 h3 h4) ht hs h hruns

variable {xs : List Term}

lemma areDistinctTermsListRec_sound {x : Dom I.U T}
    (ht : TermVal I ρ T t x) (h : areDistinctTermsListRec Γ k t T xs = some true)
    (hruns : ∀ s ∈ xs, TypeRuns Γ k t s T) :
    ∀ s ∈ xs, ∀ y, TermVal I ρ T s y → x ≠ y := by
  induction xs with
  | nil =>
    intro s hs
    exact absurd hs List.not_mem_nil
  | cons s xs ih =>
    obtain ⟨b, hb, h⟩ := bind_inv h
    cases b with
    | false => cases h
    | true =>
      intro s' hs' y hy
      rcases mem_cons.1 hs' with rfl | hs'
      · exact areDistinctTermsType_sound ht hy hb (hruns _ (.head _))
      · exact ih h (fun u hu => hruns u (.tail _ hu)) s' hs' y hy

lemma exists_of_mem_forall₂ {α β : Type*} {R : α → β → Prop} {xs : List α} {ys : List β}
    (h : Forall₂ R xs ys) {y : β} (hy : y ∈ ys) : ∃ x ∈ xs, R x y := by
  induction h with
  | nil => exact absurd hy List.not_mem_nil
  | @cons a b xs ys hab _ ih =>
    rcases mem_cons.1 hy with rfl | hy
    · exact ⟨a, .head _, hab⟩
    · obtain ⟨x, hx, hR⟩ := ih hy
      exact ⟨x, .tail _ hx, hR⟩

variable {vs : List (Val I.U)}

lemma areDistinctTermsList_sound
    (hvs : Forall₂ (fun t v => den I t ρ = some (.val v)) xs vs) (hT : ∀ v ∈ vs, v.1 = T)
    (h : areDistinctTermsList Γ k T xs = some true) (hruns : ListRuns Γ k T xs) : vs.Nodup := by
  induction hvs with
  | nil => exact List.nodup_nil
  | @cons t v xs vs ht hvs ih =>
    obtain ⟨b, hb, h⟩ := bind_inv h
    cases b with
    | false => cases h
    | true =>
      refine List.nodup_cons.2 ⟨?_, ih (fun w hw => hT w (.tail _ hw)) h hruns.2⟩
      intro hmem
      obtain ⟨s, hs, hv⟩ := exists_of_mem_forall₂ hvs hmem
      obtain ⟨S, x⟩ := v
      obtain rfl : S = T := hT _ (.head _)
      exact areDistinctTermsListRec_sound ht hb hruns.1 s hs x hv rfl

/-! ## The rules -/

lemma hasTy_of_termTy (h : termTy Γ t = some T) : HasTy Γ t T := by
  unfold termTy at h
  split at h
  · rename_i hty
    cases h
    exact hty
  · cases h

lemma distinctValues_sat {c : Term} (h : distinctValues Γ k t s = some c)
    (hruns : TermRuns Γ k t s) (hty : HasTy Γ c .bool) : Sat I ρ c := by
  unfold distinctValues at h
  split at h
  swap
  · cases h
  rename_i hd
  cases h
  obtain ⟨b, hb⟩ := den_of_hasTy I hty ρ
  obtain ⟨p, hp, _⟩ := den_not_inv hb
  obtain ⟨x, y, hx, hy, hxy, heq⟩ := den_eq_inv hp
  obtain ⟨S, a, rfl⟩ : ∃ S a, x = .one ⟨S, a⟩ := by
    have hd' := hd
    unfold areDistinctTerms distinctOf at hd'
    split at hd'
    · cases hd'
    obtain ⟨S, hS, _⟩ := bind_inv hd'
    obtain ⟨a, ha⟩ := den_of_hasTy I (hasTy_of_termTy hS) ρ
    exact ⟨S, a, Den.arg.inj (some.inj (hx.symm.trans ha))⟩
  obtain ⟨b, rfl⟩ := arg_of_ty hxy
  have hne : a ≠ b := areDistinctTerms_sound hx hy hd hruns
  refine sat_not.2 ?_
  rw [Truth, hp, heq, truth_of_not]
  intro heq
  exact hne (Val.mk_inj.1 (Arg.one.inj heq))

lemma den_ofList_inv {ts : List Term} {d : Den I.U} (h : den I (Term.ofList ts) ρ = some d) :
    ∃ vs, d = .arg (.many vs) ∧ Forall₂ (fun t v => den I t ρ = some (.val v)) ts vs := by
  induction ts generalizing d with
  | nil =>
    cases h
    exact ⟨[], rfl, .nil⟩
  | cons t ts ih =>
    obtain ⟨x, y, r, hx, hy, hr, rfl⟩ := den_bop_inv rfl rfl (by decide) (by decide) h
    obtain ⟨vs, heq, hvs⟩ := ih hy
    cases heq
    cases x with
    | many ws => contradiction
    | one v =>
      cases hr
      exact ⟨v :: vs, rfl, .cons hx hvs⟩

lemma distinct_headVal_inv {r : Arg I.U} (h : headVal I (.sym .distinct) [.many vs] = some r) :
    ∃ v vs', vs = v :: vs' ∧ (∀ w ∈ vs', w.1 = v.1) ∧
      r = .one (.bool (truth (v :: vs').Nodup)) := by
  cases vs with
  | nil => cases h
  | cons v vs =>
    unfold headVal at h
    dsimp only at h
    split at h
    · rename_i hsame
      cases h
      exact ⟨v, vs, rfl, hsame, rfl⟩
    · cases h

lemma distinctTrue_sat {F c : Term} (h : distinctTrue Γ k F = some c)
    (hruns : ∀ xs ts T, F = bop .eq (uop .distinct xs) (.bool true) → xs.toList = some ts →
      ListRuns Γ k T ts) (hty : HasTy Γ c .bool) : Sat I ρ c := by
  unfold distinctTrue at h
  split at h
  swap
  · cases h
  rename_i xs
  obtain ⟨ts, hts, h⟩ := bind_inv h
  obtain ⟨T, hT, h⟩ := bind_inv h
  obtain ⟨t, ht, hT⟩ := bind_inv hT
  split at h
  swap
  · cases h
  rename_i hd
  cases h
  obtain ⟨b, hb⟩ := den_of_hasTy I hty ρ
  obtain ⟨x, y, hx, hy, _, _⟩ := den_eq_inv hb
  obtain ⟨z, r, hz, hr, heq⟩ := den_uop_inv rfl (by decide) (by decide) hx
  rw [Term.eq_ofList hts] at hz
  obtain ⟨vs, hmany, hvs⟩ := den_ofList_inv hz
  cases hmany
  obtain ⟨v, vs', rfl, hsame, rfl⟩ := distinct_headVal_inv hr
  have hv : v.1 = T := by
    cases hvs with
    | cons hv _ =>
      cases ht
      obtain ⟨a, ha⟩ := den_of_hasTy I (hasTy_of_termTy hT) ρ
      exact congrArg Sigma.fst (Den.val_inj.1 (some.inj (hv.symm.trans ha)))
  have hall : ∀ w ∈ v :: vs', w.1 = T := by
    intro w hw
    rcases mem_cons.1 hw with rfl | hw
    · exact hv
    · exact (hsame w hw).trans hv
  have hnodup := areDistinctTermsList_sound hvs hall hd (hruns _ _ _ rfl hts)
  refine sat_eq.2 ⟨x, hx, ?_⟩
  rw [heq, truth_of hnodup]
  rfl

lemma exists_values (I : Interp Γ) (ρ : Env I.U) (hxs : ∀ t ∈ xs, HasTy Γ t T) :
    ∃ vs : List (Val I.U), Forall₂ (fun t v => den I t ρ = some (.val v)) xs vs ∧
      ∀ v ∈ vs, v.1 = T := by
  induction xs with
  | nil => exact ⟨[], .nil, fun v hv => absurd hv List.not_mem_nil⟩
  | cons t xs ih =>
    obtain ⟨x, hx⟩ := den_of_hasTy I (hxs t (.head _)) ρ
    obtain ⟨vs, hvs, hT⟩ := ih fun s hs => hxs s (.tail _ hs)
    refine ⟨⟨T, x⟩ :: vs, .cons hx hvs, ?_⟩
    intro v hv
    rcases mem_cons.1 hv with rfl | hv
    · rfl
    · exact hT v hv

lemma map_den_eq (h : Forall₂ (fun t v => den I t ρ = some (.val v)) xs vs) :
    (xs.map fun t => den I t ρ) = vs.map fun v => some (.val v) := by
  induction h with
  | nil => rfl
  | cons ht _ ih => rw [List.map_cons, List.map_cons, ht, ih]

end EthosCpc.Hol
