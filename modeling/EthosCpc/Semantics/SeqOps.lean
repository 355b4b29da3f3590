import EthosCpc.Semantics.StrVal

/-!
# Values of the operators on sequences

For every shape of an operator on sequences and strings, the values of its
applications as an equivalence.  The left side may be a term that was only
found to have a value, so each of these lemmas is also an inversion.
-/

namespace EthosCpc

open Term (bop uop)
open Library
open Option (bind_some some.inj)

variable {Γ : Nat → Ty} {I : Interp Γ} {s : Sym} {a b c : Term} {v : Val I.U}

lemma value_top_inv (hs : s.arity = 3) (h : value I (.app (bop s a b) c) = some v) :
    ∃ x y z, value I a = some x ∧ value I b = some y ∧ value I c = some z ∧
      symVal I s [x, y, z] = some v := by
  rw [value_top I hs] at h
  obtain ⟨x, hx, h⟩ := bind_inv h
  obtain ⟨y, hy, h⟩ := bind_inv h
  obtain ⟨z, hz, h⟩ := bind_inv h
  exact ⟨x, y, z, hx, hy, hz, h⟩

/-! ## One argument -/

lemma value_seq1 {f : ∀ T, List (Dom I.U T) → Val I.U} (hs : s.arity = 1)
    (hv : symVal I s = vSeq1 f) :
    value I (uop s a) = some v ↔ ∃ T x, SeqVal I T a x ∧ v = f T x := by
  constructor
  · intro h
    obtain ⟨w, ha, h⟩ := value_uop_inv I hs h
    rw [hv] at h
    unfold vSeq1 at h
    split at h
    · rename_i T x heq
      cases heq
      exact ⟨T, x, ha, (some.inj h).symm⟩
    · cases h
  · rintro ⟨T, x, ha, rfl⟩
    rw [value_uop I hs, show value I a = _ from ha, hv]
    rfl

lemma value_str1 {f : Str → Val I.U} (hs : s.arity = 1) (hv : symVal I s = vStr1 f) :
    value I (uop s a) = some v ↔ ∃ x, StrVal I a x ∧ v = f x := by
  constructor
  · intro h
    obtain ⟨w, ha, h⟩ := value_uop_inv I hs h
    rw [hv] at h
    unfold vStr1 at h
    split at h
    · rename_i x heq
      cases heq
      exact ⟨x, ha, (some.inj h).symm⟩
    · cases h
  · rintro ⟨x, ha, rfl⟩
    rw [value_uop I hs, show value I a = _ from ha, hv]
    rfl

lemma value_int1 {f : Int → Val I.U} (hs : s.arity = 1) (hv : symVal I s = vInt1 f) :
    value I (uop s a) = some v ↔ ∃ n, IntVal I a n ∧ v = f n := by
  constructor
  · intro h
    obtain ⟨w, ha, h⟩ := value_uop_inv I hs h
    rw [hv] at h
    obtain ⟨n, heq, rfl⟩ := vInt1_inv h
    cases heq
    exact ⟨n, ha, rfl⟩
  · rintro ⟨n, ha, rfl⟩
    rw [value_uop I hs, show value I a = _ from ha, hv]
    rfl

lemma value_seqUnit : value I (uop .seqUnit a) = some v ↔
    ∃ (T : Ty) (x : Dom I.U T), value I a = some ⟨T, x⟩ ∧ v = Val.seq T [x] := by
  constructor
  · intro h
    obtain ⟨⟨T, x⟩, ha, h⟩ := value_uop_inv I rfl h
    exact ⟨T, x, ha, (some.inj h).symm⟩
  rintro ⟨T, x, ha, rfl⟩
  rw [value_uop I rfl, ha]
  rfl

/-! ## Two arguments -/

lemma value_seqRel {p : ∀ T, List (Dom I.U T) → List (Dom I.U T) → Prop} (hs : s.arity = 2)
    (hv : symVal I s = vSeqRel p) :
    value I (bop s a b) = some v ↔
      ∃ T x y, SeqVal I T a x ∧ SeqVal I T b y ∧ v = Val.bool (truth (p T x y)) := by
  constructor
  · intro h
    obtain ⟨w, w', ha, hb, h⟩ := value_bop_inv I hs h
    rw [hv] at h
    unfold vSeqRel at h
    split at h
    swap
    · cases h
    rename_i T x T' y heq
    split at h
    · rename_i hT
      subst hT
      cases heq
      exact ⟨_, x, y, ha, hb, (some.inj h).symm⟩
    · cases h
  · rintro ⟨T, x, y, ha, hb, rfl⟩
    rw [value_bop I hs, show value I a = _ from ha, show value I b = _ from hb, hv]
    exact dif_pos rfl

/-! ## Three arguments -/

lemma value_substr : value I (.app (bop .strSubstr a b) c) = some v ↔
    ∃ T x n m, SeqVal I T a x ∧ IntVal I b n ∧ IntVal I c m ∧
      v = Val.seq T (Words.substr x n m) := by
  constructor
  · intro h
    obtain ⟨w, w', w'', ha, hb, hc, h⟩ := value_top_inv rfl h
    rw [show symVal I .strSubstr = vSubstr from rfl] at h
    unfold vSubstr at h
    split at h
    · rename_i T x n m heq
      cases heq
      exact ⟨T, x, n, m, ha, hb, hc, (some.inj h).symm⟩
    · cases h
  · rintro ⟨T, x, n, m, ha, hb, hc, rfl⟩
    exact seqVal_substr ha hb hc

lemma value_seq3 {f : ∀ T, List (Dom I.U T) → List (Dom I.U T) → List (Dom I.U T) →
    List (Dom I.U T)} (hs : s.arity = 3) (hv : symVal I s = vSeq3 f) :
    value I (.app (bop s a b) c) = some v ↔
      ∃ T x y z, SeqVal I T a x ∧ SeqVal I T b y ∧ SeqVal I T c z ∧ v = Val.seq T (f T x y z) := by
  constructor
  · intro h
    obtain ⟨w, w', w'', ha, hb, hc, h⟩ := value_top_inv hs h
    rw [hv] at h
    unfold vSeq3 at h
    split at h
    swap
    · cases h
    rename_i T x T' y T'' z heq
    split at h
    swap
    · cases h
    rename_i hT
    subst hT
    split at h
    · rename_i hT'
      subst hT'
      cases heq
      exact ⟨_, x, y, z, ha, hb, hc, (some.inj h).symm⟩
    · cases h
  · rintro ⟨T, x, y, z, ha, hb, hc, rfl⟩
    rw [value_top I hs, show value I a = _ from ha, show value I b = _ from hb,
      show value I c = _ from hc, hv]
    simp only [bind_some, vSeq3, dif_pos]

open Classical in
lemma value_indexof : value I (.app (bop .strIndexof a b) c) = some v ↔
    ∃ T x y n, SeqVal I T a x ∧ SeqVal I T b y ∧ IntVal I c n ∧
      v = Val.int (Words.indexof x y n) := by
  constructor
  · intro h
    obtain ⟨w, w', w'', ha, hb, hc, h⟩ := value_top_inv rfl h
    rw [show symVal I .strIndexof = vIndexof from rfl] at h
    unfold vIndexof at h
    split at h
    swap
    · cases h
    rename_i T x T' y n heq
    split at h
    · rename_i hT
      subst hT
      cases heq
      exact ⟨_, x, y, n, ha, hb, hc, (some.inj h).symm⟩
    · cases h
  · rintro ⟨T, x, y, n, ha, hb, hc, rfl⟩
    rw [value_top I rfl, show value I a = _ from ha, show value I b = _ from hb,
      show value I c = _ from hc, show symVal I .strIndexof = vIndexof from rfl]
    simp only [bind_some, vIndexof, dif_pos]

noncomputable def constStr (x : Str) : Interp fun _ => .seq .char where
  U := fun _ => Unit
  const := fun _ => x
  divByZero := fun _ => 0
  intDivByZero := fun _ => 0
  modByZero := fun _ => 0

end EthosCpc
