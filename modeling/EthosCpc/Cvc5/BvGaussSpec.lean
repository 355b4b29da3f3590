import EthosCpc.Cvc5.BvGauss
import EthosCpc.Library.Inversion

/-!
# Gaussian elimination keeps the solutions

Every operation on the rows is invertible modulo `prime`, so the solutions stay
the same.  When the elimination has come to the row `prow` and the column
`pcol`, the rows above have their pivots and the others are zero to the left of
`pcol` (`Reduced`); at the end this is a reduced row echelon form.  Entries need
not be reduced for this: those that count are exactly `0` or `1`.
-/

namespace EthosCpc.Cvc5.BvGauss

open Nat (le_of_lt le_of_not_lt le_refl lt_of_lt_of_le lt_succ_self not_lt_zero zero_le)
open Library.LinearMod
open Int (emod_nonneg mod_modEq zero_emod)
open Function (update update_of_ne update_self)

variable {prime : Int} {nrows ncols prow pcol i j k n : Nat} {s s' t : System}

/-! ## Row operations -/

lemma modAdd_modEq (x y m : Int) : modAdd x y m ≡ x + y [ZMOD m] := mod_modEq _ _

lemma modMultiply_modEq (x y m : Int) : modMultiply x y m ≡ x * y [ZMOD m] := mod_modEq _ _

lemma modInverse_modEq {x m : Int} (h : modInverse x m ≠ -1) : modInverse x m * x ≡ 1 [ZMOD m] := by
  unfold modInverse at h ⊢
  split at h
  swap
  · contradiction
  rename_i hgcd
  rw [if_pos hgcd]
  have hab := Int.gcd_eq_gcd_ab x m
  rw [hgcd, Nat.cast_one] at hab
  calc Int.gcdA x m % m * x ≡ Int.gcdA x m * x [ZMOD m] := (mod_modEq _ _).mul_right x
    _ ≡ 1 [ZMOD m] := by
      rw [Int.modEq_iff_dvd, hab]
      exact ⟨Int.gcdB x m, by ring⟩

/-- No coefficient is negative. -/
def Nonneg (nrows ncols : Nat) (s : System) : Prop := ∀ i < nrows, ∀ k < ncols, 0 ≤ s.lhs i k

/-- From `s` to `t` only rows from `prow` on have been changed, with the same solutions, and no
coefficient has become negative. -/
structure Keeps (prime : Int) (nrows ncols prow : Nat) (s t : System) : Prop where
  equivalent : Equivalent prime nrows ncols s t
  above : ∀ i < prow, t.lhs i = s.lhs i
  nonneg : Nonneg nrows ncols s → Nonneg nrows ncols t

lemma Keeps.refl : Keeps prime nrows ncols prow s s := ⟨.refl, fun _ _ => rfl, id⟩

lemma Keeps.trans (h : Keeps prime nrows ncols prow s s') (h' : Keeps prime nrows ncols prow s' t) :
    Keeps prime nrows ncols prow s t where
  equivalent := h.equivalent.trans h'.equivalent
  above i hi := (h'.above i hi).trans (h.above i hi)
  nonneg hs := h'.nonneg (h.nonneg hs)

lemma Keeps.mono {r : Nat} (h : Keeps prime nrows ncols r s t) (hr : prow ≤ r) :
    Keeps prime nrows ncols prow s t :=
  ⟨h.equivalent, fun i hi => h.above i (Nat.lt_of_lt_of_le hi hr), h.nonneg⟩

/-- The rows from `prow` on are zero to the left of `pcol`. -/
def ZeroLeft (nrows prow pcol : Nat) (s : System) : Prop :=
  ∀ i, prow ≤ i → i < nrows → ∀ k < pcol, s.lhs i k = 0

lemma reduceEntry_lhs (prime : Int) (s : System) (j k r l : Nat) :
    (reduceEntry prime s j k).lhs r l =
      if r = j ∧ l = k then s.lhs j k % prime else s.lhs r l := by
  unfold reduceEntry
  by_cases hr : r = j
  swap
  · simp only [update_of_ne hr, hr, false_and, if_false]
  subst hr
  simp only [update_self, true_and]
  by_cases hl : l = k
  · subst hl
    rw [update_self, if_pos rfl]
  · rw [update_of_ne hl, if_neg hl]

lemma reduceEntry_eq_zero {r l : Nat} (h : s.lhs r l = 0) :
    (reduceEntry prime s j k).lhs r l = 0 := by
  rw [reduceEntry_lhs]
  split
  · rename_i heq
    rw [← heq.1, ← heq.2, h, zero_emod]
  · exact h

lemma ZeroLeft.reduceEntry (h : ZeroLeft nrows prow pcol s) :
    ZeroLeft nrows prow pcol (reduceEntry prime s j k) :=
  fun i hi hi' l hl => reduceEntry_eq_zero (h i hi hi' l hl)

lemma keeps_reduceEntry (hprime : 0 < prime) (hj : prow ≤ j) :
    Keeps prime nrows ncols prow s (reduceEntry prime s j k) where
  equivalent := by
    refine equivalent_of_combines (u := 1) (v := 1) (c := 0) (j := j) (i := j) rfl (.inl rfl)
      ⟨?_, ?_⟩ ?_
    · intro l _
      rw [reduceEntry_lhs, one_mul, zero_mul, add_zero]
      split
      · rename_i heq
        rw [heq.2]
        exact mod_modEq _ _
      · rfl
    · rw [one_mul, zero_mul, add_zero]
      rfl
    · intro r _ hr
      refine ⟨fun l _ => ?_, rfl⟩
      rw [reduceEntry_lhs, if_neg fun heq => hr heq.1]
  above i hi := by
    funext l
    rw [reduceEntry_lhs, if_neg]
    rintro ⟨rfl, -⟩
    exact Nat.lt_irrefl _ (Nat.lt_of_lt_of_le hi hj)
  nonneg hs i hi l hl := by
    rw [reduceEntry_lhs]
    split
    · exact emod_nonneg _ hprime.ne'
    · exact hs i hi l hl

lemma keeps_swapRows (hj : prow ≤ j) (hk : prow ≤ k) (hj' : j < nrows) (hk' : k < nrows) :
    Keeps prime nrows ncols prow s (swapRows s j k) where
  equivalent := by
    have hkj : (if k = j then k else if k = k then j else k) = j := by
      split
      · assumption
      · rw [if_pos rfl]
    refine equivalent_of_swap hj' hk' (fun l => ?_) (fun l => ?_) ?_ ?_ ?_
    · change s.lhs (if j = j then k else _) l = _
      rw [if_pos rfl]
    · change s.lhs (if k = j then k else if k = k then j else k) l = _
      rw [hkj]
    · change s.rhs (if j = j then k else _) = _
      rw [if_pos rfl]
    · change s.rhs (if k = j then k else if k = k then j else k) = _
      rw [hkj]
    intro r _ hrj hrk
    have hr : (if r = j then k else if r = k then j else r) = r := by rw [if_neg hrj, if_neg hrk]
    refine ⟨fun l _ => ?_, ?_⟩
    · change s.lhs (if r = j then k else if r = k then j else r) l = _
      rw [hr]
    · change s.rhs (if r = j then k else if r = k then j else r) = _
      rw [hr]
  above i hi := by
    change s.lhs (if i = j then k else if i = k then j else i) = _
    rw [if_neg (by omega), if_neg (by omega)]
  nonneg hs i hi l hl := by
    change 0 ≤ s.lhs (if i = j then k else if i = k then j else i) l
    split
    · exact hs k hk' l hl
    split
    · exact hs j hj' l hl
    · exact hs i hi l hl

/-- Exchanging rows does not concern what holds for all of them. -/
lemma ZeroLeft.swapRows (h : ZeroLeft nrows prow pcol s) (hj : prow ≤ j) (hk : prow ≤ k)
    (hj' : j < nrows) (hk' : k < nrows) : ZeroLeft nrows prow pcol (swapRows s j k) := by
  intro i hi hi' l hl
  change s.lhs (if i = j then k else if i = k then j else i) l = 0
  split
  · exact h k hk hk' l hl
  split
  · exact h j hj hj' l hl
  · exact h i hi hi' l hl

section MapRow

variable {f : Nat → Int → Int} {g : Int → Int}

lemma mapRow_lhs_self : (mapRow s j pcol ncols f g).lhs j k =
    if pcol ≤ k ∧ k < ncols then f k (s.lhs j k) else s.lhs j k := by
  change update s.lhs j _ j k = _
  rw [update_self]

lemma mapRow_lhs_of_ne (h : i ≠ j) : (mapRow s j pcol ncols f g).lhs i = s.lhs i :=
  update_of_ne h _ _

lemma mapRow_rhs_of_ne (h : i ≠ j) : (mapRow s j pcol ncols f g).rhs i = s.rhs i :=
  update_of_ne h _ _

lemma equivalent_mapRow {u v c : Int} (hu : u * v ≡ 1 [ZMOD prime])
    (hi : c = 0 ∨ (i < nrows ∧ i ≠ j))
    (hf : ∀ k, pcol ≤ k → k < ncols → f k (s.lhs j k) ≡ u * s.lhs j k + c * s.lhs i k [ZMOD prime])
    (hleft : ∀ k < pcol, s.lhs j k = u * s.lhs j k + c * s.lhs i k)
    (hg : g (s.rhs j) ≡ u * s.rhs j + c * s.rhs i [ZMOD prime]) :
    Equivalent prime nrows ncols s (mapRow s j pcol ncols f g) := by
  refine equivalent_of_combines hu hi ⟨?_, ?_⟩ ?_
  · intro k hk
    rw [mapRow_lhs_self]
    split
    · rename_i hin
      exact hf k hin.1 hin.2
    rename_i hout
    have hlt : k < pcol := by omega
    rw [← hleft k hlt]
  · change update s.rhs j _ j ≡ _ [ZMOD prime]
    rw [update_self]
    exact hg
  · exact fun r _ hr => ⟨fun k _ => congrFun (mapRow_lhs_of_ne hr) k, mapRow_rhs_of_ne hr⟩

lemma nonneg_mapRow (hf : ∀ k e, 0 ≤ f k e) (hs : Nonneg nrows ncols s) :
    Nonneg nrows ncols (mapRow s j pcol ncols f g) := by
  intro i hi k hk
  by_cases hij : i = j
  swap
  · rw [mapRow_lhs_of_ne hij]
    exact hs i hi k hk
  subst hij
  rw [mapRow_lhs_self]
  split
  · exact hf k _
  · exact hs i hi k hk

lemma mapRow_lhs_left (hk : k < pcol) : (mapRow s j pcol ncols f g).lhs i k = s.lhs i k := by
  by_cases hi : i = j
  · subst hi
    rw [mapRow_lhs_self, if_neg fun hin => Nat.not_le_of_lt hk hin.1]
  · rw [mapRow_lhs_of_ne hi]

end MapRow

/-! ## Finding a pivot -/

/-- All rows from `prow` on are zero in the column `pcol`. -/
def NoPivot (nrows prow pcol : Nat) (s : System) : Prop :=
  ∀ i, prow ≤ i → i < nrows → s.lhs i pcol = 0

lemma ZeroLeft.succ (h : ZeroLeft nrows prow pcol s) (hno : NoPivot nrows prow pcol s) :
    ZeroLeft nrows prow (pcol + 1) s := by
  intro i hi hi' k hk
  cases Nat.lt_succ_iff_lt_or_eq.1 hk with
  | inl hlt => exact h i hi hi' k hlt
  | inr heq => exact heq ▸ hno i hi hi'

lemma searchPivot_spec (hprime : 0 < prime) (hzero : ZeroLeft nrows prow pcol s)
    (hrow : prow < k) (hn : k + n = nrows) (hpivot : s.lhs prow pcol = 0)
    (hdone : ∀ i, prow < i → i < k → s.lhs i pcol = 0) :
    Keeps prime nrows ncols prow s (searchPivot prime pcol prow n k s) ∧
      ZeroLeft nrows prow pcol (searchPivot prime pcol prow n k s) ∧
      ((searchPivot prime pcol prow n k s).lhs prow pcol = 0 →
        NoPivot nrows prow pcol (searchPivot prime pcol prow n k s)) := by
  induction n generalizing k s with
  | zero =>
    refine ⟨.refl, hzero, fun _ i hi hi' => ?_⟩
    change s.lhs i pcol = 0
    by_cases heq : i = prow
    · rw [heq]
      exact hpivot
    · exact hdone i (by omega) (by omega)
  | succ n ih =>
    have hkeeps : Keeps prime nrows ncols prow s (reduceEntry prime s k pcol) :=
      keeps_reduceEntry hprime (Nat.le_of_lt hrow)
    have hzero' : ZeroLeft nrows prow pcol (reduceEntry prime s k pcol) := hzero.reduceEntry
    rw [searchPivot]
    split
    · rename_i hne
      have hk : k < nrows := by omega
      refine ⟨hkeeps.trans (keeps_swapRows (Nat.le_refl _) (Nat.le_of_lt hrow) (by omega) hk),
        hzero'.swapRows (Nat.le_refl _) (Nat.le_of_lt hrow) (by omega) hk, fun h => ?_⟩
      refine absurd ?_ hne
      change (reduceEntry prime s k pcol).lhs (if prow = prow then k else _) pcol = 0 at h
      rw [if_pos rfl] at h
      exact h
    rename_i heq
    have heq : (reduceEntry prime s k pcol).lhs k pcol = 0 := Decidable.not_not.1 heq
    obtain ⟨hk, hz, hno⟩ := ih hzero' (Nat.lt_succ_of_lt hrow) (by omega)
      (reduceEntry_eq_zero hpivot) (by
        intro i hi hi'
        by_cases hik : i = k
        · rw [hik]
          exact heq
        · exact reduceEntry_eq_zero (hdone i hi (by omega)))
    exact ⟨hkeeps.trans hk, hz, hno⟩

/-- The search for a pivot ends with one, or in the last column. -/
structure Found (prime : Int) (nrows ncols prow pcol : Nat) (s : System) (res : Nat × System) :
    Prop where
  keeps : Keeps prime nrows ncols prow s res.2
  le : pcol ≤ res.1
  lt : res.1 < ncols
  zeroLeft : ZeroLeft nrows prow res.1 res.2
  pivot : res.2.lhs prow res.1 ≠ 0 ∨ (res.1 + 1 = ncols ∧ NoPivot nrows prow res.1 res.2)

/-- By induction on the columns to the right. -/
lemma findPivot_spec (hprime : 0 < prime) (hrow : prow < nrows)
    (hzero : ZeroLeft nrows prow pcol s) (hn : pcol + n + 1 = ncols) :
    Found prime nrows ncols prow pcol s (findPivot prime nrows prow n pcol s) := by
  have hsearch : ∀ s : System, ∀ pcol, ZeroLeft nrows prow pcol s → s.lhs prow pcol = 0 → ∀ t,
      t = searchPivot prime pcol prow (nrows - (prow + 1)) (prow + 1) s →
      Keeps prime nrows ncols prow s t ∧ ZeroLeft nrows prow pcol t ∧
        (t.lhs prow pcol = 0 → NoPivot nrows prow pcol t) := by
    rintro s pcol hzero hpivot t rfl
    exact searchPivot_spec hprime hzero (Nat.lt_succ_self prow) (by omega) hpivot
      fun i hi hi' => absurd hi' (by omega)
  induction n generalizing pcol s with
  | zero =>
    rw [findPivot]
    split
    swap
    · rename_i hp
      exact ⟨.refl, Nat.le_refl _, by dsimp only; omega, hzero, .inl hp⟩
    rename_i hpivot
    obtain ⟨hkeeps, hz, hno⟩ := hsearch s pcol hzero hpivot _ rfl
    refine ⟨hkeeps, Nat.le_refl _, by dsimp only; omega, hz, ?_⟩
    by_cases hp : (searchPivot prime pcol prow (nrows - (prow + 1)) (prow + 1) s).lhs prow pcol = 0
    · exact .inr ⟨by dsimp only; omega, hno hp⟩
    · exact .inl hp
  | succ n ih =>
    rw [findPivot]
    split
    swap
    · rename_i hp
      exact ⟨.refl, Nat.le_refl _, by dsimp only; omega, hzero, .inl hp⟩
    rename_i hpivot
    obtain ⟨hkeeps, hz, hno⟩ := hsearch s pcol hzero hpivot _ rfl
    dsimp only
    split
    swap
    · rename_i hp
      exact ⟨hkeeps, Nat.le_refl _, by dsimp only; omega, hz, .inl hp⟩
    rename_i hp
    have hz' := hz.succ (hno hp)
    split
    · have hz'' : ZeroLeft nrows prow (pcol + 1) (reduceEntry prime
          (searchPivot prime pcol prow (nrows - (prow + 1)) (prow + 1) s) prow (pcol + 1)) :=
        hz'.reduceEntry
      have hfound := ih hz'' (by omega)
      exact ⟨hkeeps.trans ((keeps_reduceEntry hprime (Nat.le_refl _)).trans hfound.keeps),
        Nat.le_of_succ_le hfound.le, hfound.lt, hfound.zeroLeft, hfound.pivot⟩
    have hfound := ih hz' (by omega)
    exact ⟨hkeeps.trans hfound.keeps, Nat.le_of_succ_le hfound.le, hfound.lt,
      hfound.zeroLeft, hfound.pivot⟩

/-! ## Elimination below -/

lemma eq_zero_of_modEq {a : Int} (h : a % prime ≡ 0 [ZMOD prime]) : a % prime = 0 := by
  have h := h.eq
  rwa [Int.emod_emod, zero_emod] at h

lemma eliminateRow_pivot (hprime : 1 < prime) (hrow : prow < nrows) (hcol : pcol < ncols)
    (hzero : ZeroLeft nrows prow pcol s) (hpivot : s.lhs prow pcol ≠ 0)
    (hres : eliminateRow prime ncols prow pcol prow s = some t) :
    Keeps prime nrows ncols prow s t ∧ ZeroLeft nrows prow pcol t ∧ t.lhs prow pcol = 1 := by
  unfold eliminateRow at hres
  rw [if_pos hpivot] at hres
  by_cases hone : s.lhs prow pcol = 1
  · rw [if_neg (fun h => h hone), if_neg (fun h => h rfl)] at hres
    cases hres
    exact ⟨.refl, hzero, hone⟩
  rw [if_pos hone] at hres
  dsimp only at hres
  by_cases hinv : modInverse (s.lhs prow pcol) prime = -1
  · rw [if_pos hinv] at hres
    cases hres
  rw [if_neg hinv, if_pos (Nat.le_refl _)] at hres
  cases hres
  have hmod := modInverse_modEq hinv
  have hleft : ∀ k < pcol, s.lhs prow k = 0 := hzero prow (Nat.le_refl _) hrow
  refine ⟨⟨?_, fun i hi => mapRow_lhs_of_ne (Nat.ne_of_lt hi), ?_⟩, ?_, ?_⟩
  · refine equivalent_mapRow (c := 0) (i := prow) hmod (.inl rfl) ?_ ?_ ?_
    · intro k _ _
      rw [zero_mul, add_zero, mul_comm]
      exact modMultiply_modEq _ _ _
    · intro k hk
      rw [hleft k hk, mul_zero, mul_zero, add_zero]
    · rw [zero_mul, add_zero, mul_comm]
      exact modMultiply_modEq _ _ _
  · exact nonneg_mapRow fun k e => emod_nonneg _ (by omega)
  · intro i hi hi' k hk
    rw [mapRow_lhs_left hk]
    exact hzero i hi hi' k hk
  rw [mapRow_lhs_self, if_pos ⟨Nat.le_refl _, hcol⟩]
  unfold modMultiply
  rw [mul_comm, hmod.eq]
  exact Int.emod_eq_of_lt (by decide) hprime

lemma eliminateRow_below (hprime : 1 < prime) (hrow : prow < nrows) (hcol : pcol < ncols)
    (hj : prow < j) (hj' : j < nrows) (hzero : ZeroLeft nrows prow pcol s)
    (hpivot : s.lhs j pcol ≠ 0 → s.lhs prow pcol = 1)
    (hres : eliminateRow prime ncols prow pcol j s = some t) :
    Keeps prime nrows ncols (prow + 1) s t ∧ ZeroLeft nrows prow pcol t ∧ t.lhs j pcol = 0 ∧
      ∀ i, i ≠ j → t.lhs i = s.lhs i := by
  have hleft : ∀ k < pcol, s.lhs prow k = 0 := hzero prow (Nat.le_refl _) hrow
  have hleft' : ∀ k < pcol, s.lhs j k = 0 := hzero j (Nat.le_of_lt hj) hj'
  -- The row becomes `u` times itself minus the pivot row.
  have hmap : ∀ (f : Nat → Int → Int) (g : Int → Int) (u v : Int), u * v ≡ 1 [ZMOD prime] →
      u * s.lhs j pcol ≡ 1 [ZMOD prime] → s.lhs prow pcol = 1 →
      (∀ k e, f k e ≡ u * e + -1 * s.lhs prow k [ZMOD prime]) →
      (∀ k e, f k e % prime = f k e) → (∀ k e, 0 ≤ f k e) →
      (∀ e, g e ≡ u * e + -1 * s.rhs prow [ZMOD prime]) →
      t = mapRow s j pcol ncols f g →
      Keeps prime nrows ncols (prow + 1) s t ∧ ZeroLeft nrows prow pcol t ∧ t.lhs j pcol = 0 ∧
        ∀ i, i ≠ j → t.lhs i = s.lhs i := by
    intro f g u v hu hone hpone hf hfmod hfpos hg ht
    subst ht
    refine ⟨⟨?_, fun i hi => mapRow_lhs_of_ne (by omega), nonneg_mapRow hfpos⟩, ?_, ?_,
      fun i hi => mapRow_lhs_of_ne hi⟩
    · refine equivalent_mapRow hu (.inr ⟨hrow, Nat.ne_of_lt hj⟩) (fun k _ _ => hf k _) ?_ (hg _)
      intro k hk
      rw [hleft k hk, hleft' k hk, mul_zero, mul_zero, add_zero]
    · intro i hi hi' k hk
      rw [mapRow_lhs_left hk]
      exact hzero i hi hi' k hk
    rw [mapRow_lhs_self, if_pos ⟨Nat.le_refl _, hcol⟩, ← hfmod]
    apply eq_zero_of_modEq
    rw [hfmod]
    refine (hf pcol _).trans ?_
    rw [hpone]
    exact (hone.add_right (-1 * 1))
  unfold eliminateRow at hres
  by_cases hne : s.lhs j pcol = 0
  · rw [if_neg (fun h => h hne)] at hres
    cases hres
    exact ⟨.refl, hzero, hne, fun _ _ => rfl⟩
  have hpone := hpivot hne
  rw [if_pos hne] at hres
  by_cases hone : s.lhs j pcol = 1
  · rw [if_neg (fun h => h hone), if_pos hj.ne'] at hres
    cases hres
    refine hmap _ _ 1 1 rfl (by rw [hone, one_mul]) hpone ?_ (fun _ _ => Int.emod_emod _ _)
      (fun _ _ => emod_nonneg _ (by omega)) ?_ rfl
    · intro k e
      rw [one_mul, neg_one_mul]
      exact modAdd_modEq _ _ _
    intro e
    rw [one_mul, neg_one_mul]
    exact modAdd_modEq _ _ _
  rw [if_pos hone] at hres
  dsimp only at hres
  by_cases hinv : modInverse (s.lhs j pcol) prime = -1
  · rw [if_pos hinv] at hres
    cases hres
  rw [if_neg hinv, if_neg (Nat.not_le_of_lt hj)] at hres
  cases hres
  have hmod := modInverse_modEq hinv
  refine hmap _ _ _ _ hmod hmod hpone ?_ (fun _ _ => Int.emod_emod _ _)
    (fun _ _ => emod_nonneg _ (by omega)) ?_ rfl
  · intro k e
    rw [neg_one_mul, mul_comm _ e]
    exact (modAdd_modEq _ _ _).trans ((modMultiply_modEq _ _ _).add_right _)
  intro e
  rw [neg_one_mul, mul_comm _ e]
  exact (modAdd_modEq _ _ _).trans ((modMultiply_modEq _ _ _).add_right _)

lemma rowsBelow_spec (hprime : 1 < prime) (hcol : pcol < ncols) (hj : prow < j)
    (hn : j + n = nrows) (hzero : ZeroLeft nrows prow pcol s)
    (hpivot : s.lhs prow pcol = 1 ∨ NoPivot nrows prow pcol s)
    (hdone : ∀ i, prow < i → i < j → s.lhs i pcol = 0)
    (hres : rowsBelow prime ncols prow pcol n j s = some t) :
    Keeps prime nrows ncols (prow + 1) s t ∧ ZeroLeft nrows prow pcol t ∧
      ∀ i, prow < i → i < nrows → t.lhs i pcol = 0 := by
  induction n generalizing j s with
  | zero =>
    cases hres
    exact ⟨.refl, hzero, fun i hi hi' => hdone i hi (by omega)⟩
  | succ n ih =>
    obtain ⟨s1, hrow, hrest⟩ := bind_inv hres
    have hj' : j < nrows := by omega
    have hsame : ∀ i, i ≠ j → (reduceEntry prime s j pcol).lhs i = s.lhs i := by
      intro i hi
      funext k
      rw [reduceEntry_lhs, if_neg fun h => hi h.1]
    have hpivot' : (reduceEntry prime s j pcol).lhs j pcol ≠ 0 →
        (reduceEntry prime s j pcol).lhs prow pcol = 1 := by
      intro hne
      rw [hsame prow hj.ne]
      refine hpivot.resolve_right fun hno => hne ?_
      exact reduceEntry_eq_zero (hno j (Nat.le_of_lt hj) hj')
    obtain ⟨hkeeps, hz, hzeroj, hsame'⟩ :=
      eliminateRow_below hprime (by omega) hcol hj hj' hzero.reduceEntry hpivot' hrow
    have hentry : ∀ i, i ≠ j → s.lhs i pcol = 0 → s1.lhs i pcol = 0 := by
      intro i hi h
      rw [hsame' i hi, hsame i hi]
      exact h
    obtain ⟨hkeeps', hz', hall⟩ := ih (Nat.lt_succ_of_lt hj) (by omega) hz (by
        cases hpivot with
        | inl hone =>
          refine .inl ?_
          rw [hsame' prow hj.ne, hsame prow hj.ne]
          exact hone
        | inr hno =>
          refine .inr fun i hi hi' => ?_
          by_cases hij : i = j
          · rw [hij]
            exact hzeroj
          · exact hentry i hij (hno i hi hi')) (by
        intro i hi hi'
        by_cases hij : i = j
        · rw [hij]
          exact hzeroj
        · exact hentry i hij (hdone i hi (by omega))) hrest
    exact ⟨((keeps_reduceEntry (by omega) (Nat.succ_le_of_lt hj)).trans hkeeps).trans hkeeps', hz',
      hall⟩

/-! ## Elimination above -/

/-- What the step (3) does to the rows from `j` on. -/
structure Cleared (prime : Int) (nrows ncols prow pcol j : Nat) (s t : System) : Prop where
  equivalent : Equivalent prime nrows ncols s t
  nonneg : Nonneg nrows ncols s → Nonneg nrows ncols t
  below : ∀ i, prow ≤ i → t.lhs i = s.lhs i
  done : ∀ i < j, t.lhs i = s.lhs i
  left : ∀ i, ∀ k < pcol, t.lhs i k = s.lhs i k
  column : s.lhs prow pcol = 1 → ∀ i, j ≤ i → i < prow → t.lhs i pcol = 0

lemma clearRow_spec (hprime : 1 < prime) (hrow : prow < nrows) (hcol : pcol < ncols)
    (hj : j < prow) (hzero : ZeroLeft nrows prow pcol s) :
    Equivalent prime nrows ncols s (clearRow prime ncols prow pcol j s) ∧
      (Nonneg nrows ncols s → Nonneg nrows ncols (clearRow prime ncols prow pcol j s)) ∧
      (∀ i, i ≠ j → (clearRow prime ncols prow pcol j s).lhs i = s.lhs i) ∧
      (∀ i, ∀ k < pcol, (clearRow prime ncols prow pcol j s).lhs i k = s.lhs i k) ∧
      (s.lhs prow pcol = 1 → (clearRow prime ncols prow pcol j s).lhs j pcol = 0) := by
  unfold clearRow
  dsimp only
  split
  swap
  · rename_i hmul
    exact ⟨.refl, id, fun _ _ => rfl, fun _ _ _ => rfl, fun _ => Decidable.not_not.1 hmul⟩
  refine ⟨?_, nonneg_mapRow fun _ _ => emod_nonneg _ (by omega),
    fun i hi => mapRow_lhs_of_ne hi, fun i k hk => mapRow_lhs_left hk, ?_⟩
  · refine equivalent_mapRow (u := 1) (v := 1) (c := -s.lhs j pcol) (i := prow) rfl
      (.inr ⟨hrow, Nat.ne_of_gt hj⟩) ?_ ?_ ?_
    · intro k _ _
      rw [one_mul, show -s.lhs j pcol * s.lhs prow k = -s.lhs prow k * s.lhs j pcol by ring]
      exact modAdd_modEq _ _ _
    · intro k hk
      rw [hzero prow (Nat.le_refl _) hrow k hk, one_mul, mul_zero, add_zero]
    · rw [one_mul, show -s.lhs j pcol * s.rhs prow = -s.rhs prow * s.lhs j pcol by ring]
      exact modAdd_modEq _ _ _
  · intro hone
    rw [mapRow_lhs_self, if_pos ⟨Nat.le_refl _, hcol⟩, hone]
    unfold modAdd
    rw [neg_one_mul, add_neg_cancel, zero_emod]

lemma rowsAbove_spec (hprime : 1 < prime) (hrow : prow < nrows) (hcol : pcol < ncols)
    (hn : j + n = prow) (hzero : ZeroLeft nrows prow pcol s) :
    Cleared prime nrows ncols prow pcol j s (rowsAbove prime ncols prow pcol n j s) := by
  induction n generalizing j s with
  | zero =>
    refine ⟨.refl, id, fun _ _ => rfl, fun _ _ => rfl, fun _ _ _ => rfl, fun _ i hi hi' => ?_⟩
    omega
  | succ n ih =>
    have hj : j < prow := by omega
    obtain ⟨heq, hnonneg, hother, hleft, hcolumn⟩ := clearRow_spec hprime hrow hcol hj hzero
    have hbelow : ∀ i, prow ≤ i → (clearRow prime ncols prow pcol j s).lhs i = s.lhs i :=
      fun i hi => hother i (by omega)
    have hzero' : ZeroLeft nrows prow pcol (clearRow prime ncols prow pcol j s) := by
      intro i hi hi' k hk
      rw [hbelow i hi]
      exact hzero i hi hi' k hk
    have h := ih (j := j + 1) (by omega) hzero'
    refine ⟨heq.trans h.equivalent, fun hs => h.nonneg (hnonneg hs),
      fun i hi => (h.below i hi).trans (hbelow i hi),
      fun i hi => (h.done i (by omega)).trans (hother i (by omega)),
      fun i k hk => (h.left i k hk).trans (hleft i k hk), fun hone i hi hi' => ?_⟩
    by_cases hij : i = j
    · subst hij
      rw [rowsAbove, h.done i (Nat.lt_succ_self _)]
      exact hcolumn hone
    · exact h.column ((congrFun (hbelow prow (Nat.le_refl _)) pcol).trans hone) i (by omega) hi'

/-! ## The loop over the pivots -/

/-- The rows above `prow` have their pivots in the columns `piv`, to the left of `pcol`; the others
are zero there. -/
structure Reduced (nrows ncols : Nat) (s : System) (piv : Nat → Nat) (prow pcol : Nat) : Prop where
  prow_le : prow ≤ nrows
  pcol_le : pcol ≤ ncols
  piv_lt : ∀ i < prow, piv i < pcol
  mono : ∀ i j, i < j → j < prow → piv i < piv j
  one : ∀ i < prow, s.lhs i (piv i) = 1
  left : ∀ i < prow, ∀ k < piv i, s.lhs i k = 0
  column : ∀ i < prow, ∀ j < nrows, j ≠ i → s.lhs j (piv i) = 0
  zeroLeft : ZeroLeft nrows prow pcol s

variable {piv : Nat → Nat} {r : Nat}

lemma Reduced.echelon (h : Reduced nrows ncols s piv prow pcol)
    (hend : prow = nrows ∨ pcol = ncols) : Echelon nrows ncols s piv prow where
  r_le := h.prow_le
  piv_lt i hi := Nat.lt_of_lt_of_le (h.piv_lt i hi) h.pcol_le
  mono := h.mono
  one := h.one
  left := h.left
  column := h.column
  zero i hi hi' k hk := by
    cases hend with
    | inl hend => omega
    | inr hend => exact h.zeroLeft i hi hi' k (hend ▸ hk)

lemma Reduced.of_keeps (h : Reduced nrows ncols s piv prow pcol) {pcol' : Nat}
    (hle : pcol ≤ pcol') (hlt : pcol' ≤ ncols)
    (hsame : ∀ i < prow, ∀ k < pcol, t.lhs i k = s.lhs i k)
    (hzero : ZeroLeft nrows prow pcol' t) : Reduced nrows ncols t piv prow pcol' where
  prow_le := h.prow_le
  pcol_le := hlt
  piv_lt i hi := Nat.lt_of_lt_of_le (h.piv_lt i hi) hle
  mono := h.mono
  one i hi := (hsame i hi _ (h.piv_lt i hi)).trans (h.one i hi)
  left i hi k hk := (hsame i hi k (hk.trans (h.piv_lt i hi))).trans (h.left i hi k hk)
  column i hi j hj hne := by
    have hpiv := h.piv_lt i hi
    by_cases hjp : j < prow
    · exact (hsame j hjp _ hpiv).trans (h.column i hi j hj hne)
    · exact hzero j (Nat.le_of_not_lt hjp) hj _ (Nat.lt_of_lt_of_le hpiv hle)
  zeroLeft := hzero

lemma Reduced.succ (h : Reduced nrows ncols s piv prow pcol) (hrow : prow < nrows)
    (hcol : pcol < ncols) (hone : s.lhs prow pcol = 1)
    (hcolumn : ∀ j < nrows, j ≠ prow → s.lhs j pcol = 0) :
    Reduced nrows ncols s (update piv prow pcol) (prow + 1) (pcol + 1) := by
  have hself : update piv prow pcol prow = pcol := update_self prow pcol piv
  have hother : ∀ i, i ≠ prow → update piv prow pcol i = piv i :=
    fun i hi => update_of_ne hi pcol piv
  refine ⟨hrow, hcol, fun i hi => ?_, fun i j hij hj => ?_, fun i hi => ?_, fun i hi k hk => ?_,
    fun i hi j hj hne => ?_, fun i hi hi' k hk => ?_⟩
  · by_cases heq : i = prow
    · rw [heq, hself]
      exact Nat.lt_succ_self _
    · rw [hother i heq]
      exact Nat.lt_succ_of_lt (h.piv_lt i (by omega))
  · rw [hother i (by omega)]
    by_cases heq : j = prow
    · rw [heq, hself]
      exact h.piv_lt i (by omega)
    · rw [hother j heq]
      exact h.mono i j hij (by omega)
  · by_cases heq : i = prow
    · rw [heq, hself]
      exact hone
    · rw [hother i heq]
      exact h.one i (by omega)
  · by_cases heq : i = prow
    · rw [heq, hself] at hk
      rw [heq]
      exact h.zeroLeft prow (Nat.le_refl _) hrow k hk
    · rw [hother i heq] at hk
      exact h.left i (by omega) k hk
  · by_cases heq : i = prow
    · rw [heq, hself]
      exact hcolumn j hj (heq ▸ hne)
    · rw [hother i heq]
      exact h.column i (by omega) j hj hne
  cases Nat.lt_succ_iff_lt_or_eq.1 hk with
  | inl hlt => exact h.zeroLeft i (by omega) hi' k hlt
  | inr heq =>
    rw [heq]
    exact hcolumn i hi' (by omega)

lemma round_spec {s1 s2 : System} {pcol' : Nat} (hprime : 1 < prime) (hrow : prow < nrows)
    (hcol : pcol < ncols) (h : Reduced nrows ncols s piv prow pcol)
    (hpivot : pivotRow prime nrows ncols prow pcol s = some (pcol', s1))
    (hbelow : rowsBelow prime ncols prow pcol' (nrows - (prow + 1)) (prow + 1) s1 = some s2)
    (ht : t = rowsAbove prime ncols prow pcol' prow 0 s2) :
    Equivalent prime nrows ncols s t ∧ (Nonneg nrows ncols s → Nonneg nrows ncols t) ∧
      ((∃ piv', Reduced nrows ncols t piv' (prow + 1) (pcol' + 1)) ∨
        (pcol' + 1 = ncols ∧ Echelon nrows ncols t piv prow)) := by
  obtain ⟨s0, hs0, heq⟩ := map_inv hpivot
  cases heq
  have hpos : 0 < prime := by omega
  have hfound : Found prime nrows ncols prow pcol (reduceEntry prime s prow pcol)
      (findPivot prime nrows prow (ncols - 1 - pcol) pcol (reduceEntry prime s prow pcol)) :=
    findPivot_spec hpos hrow h.zeroLeft.reduceEntry (by omega)
  obtain ⟨found, hf⟩ : ∃ found, found =
      findPivot prime nrows prow (ncols - 1 - pcol) pcol (reduceEntry prime s prow pcol) := ⟨_, rfl⟩
  rw [← hf] at hfound hs0 hbelow ht ⊢
  have hkeeps0 : Keeps prime nrows ncols prow s found.2 :=
    (keeps_reduceEntry hpos (Nat.le_refl _)).trans hfound.keeps
  -- The pivot row.
  have hstage : Keeps prime nrows ncols prow found.2 s1 ∧ ZeroLeft nrows prow found.1 s1 ∧
      (s1.lhs prow found.1 = 1 ∨ (found.1 + 1 = ncols ∧ NoPivot nrows prow found.1 s1)) := by
    by_cases hp : found.2.lhs prow found.1 = 0
    swap
    · obtain ⟨hk, hz, hone⟩ := eliminateRow_pivot hprime hrow hfound.lt hfound.zeroLeft hp hs0
      exact ⟨hk, hz, .inl hone⟩
    have hsame : s1 = found.2 := by
      unfold eliminateRow at hs0
      rw [if_neg (fun hne => hne hp)] at hs0
      exact (Option.some.inj hs0).symm
    rw [hsame]
    exact ⟨.refl, hfound.zeroLeft, .inr (hfound.pivot.resolve_left fun hne => hne hp)⟩
  obtain ⟨hkeeps1, hzero1, hcase⟩ := hstage
  -- The rows below and above.
  obtain ⟨hkeeps2, hzero2, hbelow2⟩ := rowsBelow_spec hprime hfound.lt (Nat.lt_succ_self prow)
    (by omega) hzero1 (hcase.imp_right fun hno => hno.2) (fun i hi hi' => by omega) hbelow
  have hcleared : Cleared prime nrows ncols prow found.1 0 s2 t := by
    rw [ht]
    exact rowsAbove_spec hprime hrow hfound.lt (Nat.zero_add _) hzero2
  have hkeeps : Keeps prime nrows ncols prow s s2 :=
    (hkeeps0.trans hkeeps1).trans (hkeeps2.mono (Nat.le_succ _))
  have hprow : s2.lhs prow = s1.lhs prow := hkeeps2.above prow (Nat.lt_succ_self _)
  have hzero : ZeroLeft nrows prow found.1 t := by
    intro i hi hi' k hk
    rw [hcleared.below i hi]
    exact hzero2 i hi hi' k hk
  have hreduced : Reduced nrows ncols t piv prow found.1 := by
    refine h.of_keeps hfound.le (Nat.le_of_lt hfound.lt) ?_ hzero
    intro i hi k hk
    rw [hcleared.left i k (Nat.lt_of_lt_of_le hk hfound.le), hkeeps.above i hi]
  refine ⟨hkeeps.equivalent.trans hcleared.equivalent,
    fun hs => hcleared.nonneg (hkeeps.nonneg hs), ?_⟩
  have hcolumn : ∀ j, prow < j → j < nrows → t.lhs j found.1 = 0 := by
    intro j hj hj'
    rw [hcleared.below j (Nat.le_of_lt hj)]
    exact hbelow2 j hj hj'
  have hentry : t.lhs prow found.1 = s1.lhs prow found.1 := by
    rw [hcleared.below prow (Nat.le_refl _), hprow]
  cases hcase with
  | inl hone =>
    refine .inl ⟨_, hreduced.succ hrow hfound.lt (hentry.trans hone) fun j hj hne => ?_⟩
    by_cases hjp : j < prow
    · exact hcleared.column (by rw [hprow]; exact hone) j (Nat.zero_le _) hjp
    · exact hcolumn j (by omega) hj
  | inr hno =>
    obtain ⟨hlast, hno⟩ := hno
    have hend : Reduced nrows ncols t piv prow (found.1 + 1) := by
      refine hreduced.of_keeps (Nat.le_succ _) hfound.lt (fun _ _ _ _ => rfl)
        (hzero.succ fun i hi hi' => ?_)
      by_cases hip : i = prow
      · rw [hip, hentry]
        exact hno prow (Nat.le_refl _) hrow
      · exact hcolumn i (by omega) hi'
    exact .inr ⟨hlast, hend.echelon (.inr hlast)⟩

lemma eliminate_spec (hprime : 1 < prime) (hn : prow + n = nrows)
    (h : Reduced nrows ncols s piv prow pcol)
    (hres : eliminate prime nrows ncols n pcol prow s = some t) :
    Equivalent prime nrows ncols s t ∧ (Nonneg nrows ncols s → Nonneg nrows ncols t) ∧
      ∃ piv r, Echelon nrows ncols t piv r := by
  induction n generalizing prow pcol s piv with
  | zero =>
    cases hres
    exact ⟨.refl, id, piv, prow, h.echelon (.inl (by omega))⟩
  | succ n ih =>
    rw [eliminate] at hres
    split at hres
    · rename_i hcol
      obtain ⟨⟨pcol', s1⟩, hpivot, hres⟩ := bind_inv hres
      obtain ⟨s2, hbelow, hres⟩ := bind_inv hres
      obtain ⟨heq, hnonneg, hcase⟩ :=
        round_spec hprime (by omega) hcol h hpivot hbelow rfl
      rcases hcase with ⟨piv', hred⟩ | ⟨hlast, hech⟩
      · obtain ⟨heq', hnonneg', hech⟩ := ih (by omega) hred hres
        exact ⟨heq.trans heq', fun hs => hnonneg' (hnonneg hs), hech⟩
      -- No column is left.
      have hend : eliminate prime nrows ncols n (pcol' + 1) (prow + 1)
          (rowsAbove prime ncols prow pcol' prow 0 s2) =
          some (rowsAbove prime ncols prow pcol' prow 0 s2) := by
        cases n with
        | zero => rfl
        | succ n => rw [eliminate, if_neg (by omega)]
      rw [hend] at hres
      cases hres
      exact ⟨heq, hnonneg, piv, prow, hech⟩
    · rename_i hcol
      cases hres
      exact ⟨.refl, id, piv, prow, h.echelon (.inr (Nat.le_antisymm h.pcol_le (le_of_not_lt hcol)))⟩

/-! ## The loop over the result -/

lemma leading_of_zero (h : ∀ k, pcol ≤ k → k < pcol + n → s.lhs i k = 0) :
    leading s i n pcol = pcol + n := by
  induction n generalizing pcol with
  | zero => rfl
  | succ n ih =>
    rw [leading, if_pos (h pcol (Nat.le_refl _) (by omega)),
      ih fun k hk hk' => h k (by omega) (by omega)]
    omega

lemma leading_of_pivot {p : Nat} (hle : pcol ≤ p) (hlt : p < pcol + n) (hp : s.lhs i p ≠ 0)
    (h : ∀ k, pcol ≤ k → k < p → s.lhs i k = 0) : leading s i n pcol = p := by
  induction n generalizing pcol with
  | zero => omega
  | succ n ih =>
    rw [leading]
    by_cases heq : pcol = p
    · rw [heq, if_neg hp]
    · rw [if_pos (h pcol (Nat.le_refl _) (by omega))]
      exact ih (by omega) (by omega) fun k hk hk' => h k (by omega) hk'

/-- The entries of row `i` from column `j` on have been reduced. -/
structure RowReduced (prime : Int) (i pcol j n : Nat) (s : System) (ispart : Bool)
    (res : System × Bool) : Prop where
  rhs : res.1.rhs = s.rhs
  other : ∀ i', i' ≠ i → res.1.lhs i' = s.lhs i'
  row : ∀ k, res.1.lhs i k = if j ≤ k ∧ k < j + n then s.lhs i k % prime else s.lhs i k
  single : res.2 = false →
    ispart = false ∧ ∀ k, j ≤ k → k < j + n → pcol < k → s.lhs i k % prime = 0

lemma reduceRow_spec (ispart : Bool) (hpos : ∀ k, j ≤ k → k < j + n → 0 ≤ s.lhs i k) :
    RowReduced prime i pcol j n s ispart (reduceRow prime i pcol n j s ispart) := by
  induction n generalizing j s ispart with
  | zero =>
    refine ⟨rfl, fun _ _ => rfl, fun k => ?_, fun h => ⟨h, fun k hk hk' => ?_⟩⟩
    · rw [if_neg (by omega)]
      rfl
    · omega
  | succ n ih =>
    obtain ⟨s1, hs1⟩ : ∃ s1, s1 =
        if prime ≤ s.lhs i j ∨ s.lhs i j ≤ -prime then reduceEntry prime s i j else s := ⟨_, rfl⟩
    have hentry : ∀ i' k, s1.lhs i' k =
        if i' = i ∧ k = j then s.lhs i j % prime else s.lhs i' k := by
      intro i' k
      rw [hs1]
      split
      · exact reduceEntry_lhs prime s i j i' k
      rename_i hsmall
      split
      · rename_i heq
        rw [heq.1, heq.2]
        refine (Int.emod_eq_of_lt (hpos j (Nat.le_refl _) (by omega)) ?_).symm
        omega
      · rfl
    have hrhs : s1.rhs = s.rhs := by
      rw [hs1]
      split
      · rfl
      · rfl
    have hlater : ∀ k, j + 1 ≤ k → s1.lhs i k = s.lhs i k := by
      intro k hk
      rw [hentry, if_neg (by omega)]
    have h := ih (j := j + 1) (s := s1) (if pcol < j ∧ s1.lhs i j ≠ 0 then true else ispart) (by
      intro k hk hk'
      rw [hlater k hk]
      exact hpos k (by omega) (by omega))
    rw [reduceRow, ← hs1]
    refine ⟨h.rhs.trans hrhs, fun i' hi' => (h.other i' hi').trans ?_, fun k => ?_, fun hb => ?_⟩
    · funext k
      rw [hentry, if_neg fun heq => hi' heq.1]
    · rw [h.row k]
      by_cases hk : j + 1 ≤ k ∧ k < j + 1 + n
      · rw [if_pos hk, if_pos (by omega), hlater k hk.1]
      rw [if_neg hk, hentry]
      by_cases hkj : k = j
      · rw [if_pos ⟨rfl, hkj⟩, if_pos (by omega), hkj]
      · rw [if_neg fun heq => hkj heq.2, if_neg (by omega)]
    obtain ⟨hb, hall⟩ := h.single hb
    by_cases hpart : pcol < j ∧ s1.lhs i j ≠ 0
    · rw [if_pos hpart] at hb
      cases hb
    rw [if_neg hpart] at hb
    refine ⟨hb, fun k hk hk' hlt => ?_⟩
    by_cases hkj : k = j
    swap
    · have hk1 : j + 1 ≤ k := by omega
      rw [← hlater k hk1]
      exact hall k hk1 (by omega) hlt
    have hzero : s1.lhs i j = 0 := by
      by_contra hne
      exact hpart ⟨hkj ▸ hlt, hne⟩
    rw [hentry, if_pos ⟨rfl, rfl⟩] at hzero
    rw [hkj]
    exact hzero

lemma RowReduced.equivalent {ispart : Bool} {res : System × Bool}
    (h : RowReduced prime i pcol j n s ispart res) : Equivalent prime nrows ncols s res.1 := by
  refine equivalent_of_combines (u := 1) (v := 1) (c := 0) (j := i) (i := i) rfl (.inl rfl)
    ⟨fun k _ => ?_, ?_⟩ fun r _ hr => ⟨fun k _ => congrFun (h.other r hr) k, congrFun h.rhs r⟩
  · rw [h.row k, one_mul, zero_mul, add_zero]
    split
    · exact mod_modEq _ _
    · rfl
  · rw [h.rhs, one_mul, zero_mul, add_zero]

lemma echelon_of_reduced (hprime : 1 < prime) (h : Echelon nrows ncols s piv r)
    (ht : ∀ i k, t.lhs i k = s.lhs i k ∨ t.lhs i k = s.lhs i k % prime) :
    Echelon nrows ncols t piv r := by
  have hzero : ∀ i k, s.lhs i k = 0 → t.lhs i k = 0 := by
    intro i k hs
    cases ht i k with
    | inl h => rw [h, hs]
    | inr h => rw [h, hs, zero_emod]
  refine ⟨h.r_le, h.piv_lt, h.mono, fun i hi => ?_, fun i hi k hk => hzero i k (h.left i hi k hk),
    fun i hi j hj hne => hzero j _ (h.column i hi j hj hne),
    fun i hi hi' k hk => hzero i k (h.zero i hi hi' k hk)⟩
  cases ht i (piv i) with
  | inl heq => rw [heq, h.one i hi]
  | inr heq =>
    rw [heq, h.one i hi]
    exact Int.emod_eq_of_lt (by decide) hprime

lemma le_piv (h : Echelon nrows ncols s piv r) (hi : i < r) : i ≤ piv i := by
  induction i with
  | zero => exact zero_le _
  | succ i ih =>
    exact Nat.succ_le_of_lt (Nat.lt_of_le_of_lt (ih (Nat.lt_of_succ_lt hi))
      (h.mono i (i + 1) (lt_succ_self i) hi))

/-- What the loop over the result says about a system in echelon form. -/
def Finished (prime : Int) (nrows ncols : Nat) (s : System) : Result × System → Prop
  | (.noSolution, _) => ∀ x, ¬ Solves prime nrows ncols s x
  | (res, t) => Equivalent prime nrows ncols s t ∧ ∃ piv r, Echelon nrows ncols t piv r ∧
      (∀ i, r ≤ i → i < nrows → t.rhs i = 0) ∧
      (res = .unique → ∀ i < r, ∀ k, piv i < k → k < ncols → t.lhs i k = 0)

variable {res : Result × System}

lemma Finished.of_equivalent (h : Finished prime nrows ncols t res)
    (heq : Equivalent prime nrows ncols s t) : Finished prime nrows ncols s res := by
  obtain ⟨res, u⟩ := res
  cases res with
  | noSolution => exact fun x hx => h x ((heq x).1 hx)
  | unique => exact ⟨heq.trans h.1, h.2⟩
  | partialResult => exact ⟨heq.trans h.1, h.2⟩

lemma finish_spec (hprime : 1 < prime) (hle : nrows ≤ ncols) (hn : i + n = nrows)
    (hech : Echelon nrows ncols s piv r) (hpos : Nonneg nrows ncols s) (ispart : Bool)
    (hrhs : ∀ i' < i, r ≤ i' → s.rhs i' = 0)
    (hsingle : ispart = false → ∀ i' < i, i' < r → ∀ k, piv i' < k → k < ncols → s.lhs i' k = 0) :
    Finished prime nrows ncols s (finish prime ncols n i s ispart) := by
  induction n generalizing i s ispart with
  | zero =>
    have hr := hech.r_le
    have hrhs' : ∀ i', r ≤ i' → i' < nrows → s.rhs i' = 0 := fun i' hi hi' => hrhs i' (by omega) hi
    cases ispart with
    | true => exact ⟨.refl, piv, r, hech, hrhs', fun h => by cases h⟩
    | false =>
      exact ⟨.refl, piv, r, hech, hrhs', fun _ i' hi' => hsingle rfl i' (by omega) hi'⟩
  | succ n ih =>
    have hi : i < nrows := by omega
    rw [finish]
    by_cases hir : i < r
    · -- A row with a pivot.
      have hpiv := hech.piv_lt i hir
      have hlead : leading s i (ncols - i) i = piv i := by
        refine leading_of_pivot (le_piv hech hir) (by omega) ?_ fun k _ hk => hech.left i hir k hk
        rw [hech.one i hir]
        decide
      rw [hlead, if_neg (Nat.not_le_of_lt hpiv)]
      have hred : RowReduced prime i (piv i) i (ncols - i) s ispart
          (reduceRow prime i (piv i) (ncols - i) i s ispart) :=
        reduceRow_spec ispart fun k _ hk => hpos i hi k (by omega)
      have hentry : ∀ i' k, (reduceRow prime i (piv i) (ncols - i) i s ispart).1.lhs i' k =
          s.lhs i' k ∨ (reduceRow prime i (piv i) (ncols - i) i s ispart).1.lhs i' k =
          s.lhs i' k % prime := by
        intro i' k
        by_cases hii : i' = i
        · rw [hii, hred.row k]
          split
          · exact .inr rfl
          · exact .inl rfl
        · rw [hred.other i' hii]
          exact .inl rfl
      refine Finished.of_equivalent (ih (by omega) (echelon_of_reduced hprime hech hentry) ?_ _ ?_ ?_)
        hred.equivalent
      · intro i' hi' k hk
        cases hentry i' k with
        | inl h =>
          rw [h]
          exact hpos i' hi' k hk
        | inr h =>
          rw [h]
          exact emod_nonneg _ (by omega)
      · intro i' hi' hr
        rw [hred.rhs]
        exact hrhs i' (by omega) hr
      intro hb i' hi' hr k hk hk'
      obtain ⟨hb, hzero⟩ := hred.single hb
      by_cases hii : i' = i
      · rw [hii] at hk ⊢
        have hik : i ≤ k := Nat.le_trans (le_piv hech hir) (Nat.le_of_lt hk)
        rw [hred.row k, if_pos (by omega)]
        exact hzero k hik (by omega) hk
      · rw [hred.other i' hii]
        exact hsingle hb i' (by omega) hr k hk hk'
    · -- A zero row.
      have hri : r ≤ i := Nat.le_of_not_lt hir
      have hlead : leading s i (ncols - i) i = ncols := by
        rw [leading_of_zero fun k _ hk => hech.zero i hri hi k (by omega)]
        omega
      rw [hlead, if_pos (Nat.le_refl _)]
      suffices hgoal : ∀ s1 : System, s1.lhs = s.lhs → s1.rhs i = s.rhs i % prime →
          (∀ i', i' ≠ i → s1.rhs i' = s.rhs i') → Finished prime nrows ncols s
            (if s1.rhs i ≠ 0 then (.noSolution, s1) else finish prime ncols n (i + 1) s1 ispart) by
        exact hgoal _ rfl (update_self _ _ _) fun i' hii => update_of_ne hii _ _
      intro s1 hlhs hself hother
      by_cases hzero : s1.rhs i = 0
      · rw [if_neg (fun h => h hzero)]
        have heq : Equivalent prime nrows ncols s s1 := by
          refine equivalent_of_combines (u := 1) (v := 1) (c := 0) (j := i) (i := i) rfl (.inl rfl)
            ⟨fun k _ => ?_, ?_⟩ fun r' _ hr => ⟨fun k _ => by rw [hlhs], hother r' hr⟩
          · rw [hlhs, one_mul, zero_mul, add_zero]
          · rw [hself, one_mul, zero_mul, add_zero]
            exact mod_modEq _ _
        refine Finished.of_equivalent (ih (by omega)
          (echelon_of_reduced hprime hech fun i' k => .inl (by rw [hlhs])) ?_ ispart ?_ ?_) heq
        · intro i' hi' k hk
          rw [hlhs]
          exact hpos i' hi' k hk
        · intro i' hi' hr
          by_cases hii : i' = i
          · rw [hii]
            exact hzero
          · rw [hother i' hii]
            exact hrhs i' (by omega) hr
        · intro hb i' hi' hr
          rw [hlhs]
          exact hsingle hb i' (by omega) hr
      · rw [if_pos hzero]
        intro x
        refine hech.not_solves hri hi fun hdvd => hzero ?_
        rw [hself]
        exact Int.emod_eq_zero_of_dvd hdvd

/-! ## Gaussian elimination -/

/-- What the elimination is to say. -/
def Correct (prime : Int) (nrows ncols : Nat) (s : System) : Result × System → Prop
  | (.noSolution, _) => ∀ x, ¬ Solves prime nrows ncols s x
  | (res, t) => (∃ x, Solves prime nrows ncols s x) ∧ Equivalent prime nrows ncols s t ∧
      (∃ piv r, Echelon nrows ncols t piv r ∧ ∀ i, r ≤ i → i < nrows → t.rhs i = 0) ∧
      (res = .unique → ∀ i < nrows, ∀ k < ncols, ∀ k' < ncols,
        ¬ prime ∣ t.lhs i k → ¬ prime ∣ t.lhs i k' → k = k')

lemma correct_of_finished (h : Finished prime nrows ncols s res) :
    Correct prime nrows ncols s res := by
  have hother : ∀ t : System, ∀ b : Result, (Equivalent prime nrows ncols s t ∧
      ∃ piv r, Echelon nrows ncols t piv r ∧ (∀ i, r ≤ i → i < nrows → t.rhs i = 0) ∧
        (b = .unique → ∀ i < r, ∀ k, piv i < k → k < ncols → t.lhs i k = 0)) →
      (∃ x, Solves prime nrows ncols s x) ∧ Equivalent prime nrows ncols s t ∧
      (∃ piv r, Echelon nrows ncols t piv r ∧ ∀ i, r ≤ i → i < nrows → t.rhs i = 0) ∧
      (b = .unique → ∀ i < nrows, ∀ k < ncols, ∀ k' < ncols,
        ¬ prime ∣ t.lhs i k → ¬ prime ∣ t.lhs i k' → k = k') := by
    rintro t b ⟨heq, piv, r, hech, hrhs, hsingle⟩
    obtain ⟨x, hx⟩ := hech.solvable (m := prime) fun i hi hi' => by
      rw [hrhs i hi hi']
      exact dvd_zero prime
    refine ⟨⟨x, (heq x).2 hx⟩, heq, ⟨piv, r, hech, hrhs⟩, fun hb i hi k hk k' hk' hne hne' => ?_⟩
    have hpivot : ∀ l < ncols, ¬ prime ∣ t.lhs i l → i < r ∧ l = piv i := by
      intro l hl hne
      have hentry : t.lhs i l ≠ 0 := by
        intro hzero
        rw [hzero] at hne
        exact hne (dvd_zero prime)
      have hir : i < r := by
        by_contra hir
        exact hentry (hech.zero i (le_of_not_lt hir) hi l hl)
      refine ⟨hir, ?_⟩
      rcases Nat.lt_trichotomy l (piv i) with hlt | heq | hlt
      · exact absurd (hech.left i hir l hlt) hentry
      · exact heq
      · exact absurd (hsingle hb i hir l hlt hl) hentry
    rw [(hpivot k hk hne).2, (hpivot k' hk' hne').2]
  obtain ⟨b, t⟩ := res
  cases b with
  | noSolution => exact h
  | unique => exact hother t _ h
  | partialResult => exact hother t _ h

lemma reduced_start : Reduced nrows ncols s (fun _ => 0) 0 0 where
  prow_le := zero_le _
  pcol_le := zero_le _
  piv_lt _ hi := absurd hi (not_lt_zero _)
  mono _ _ _ hj := absurd hj (not_lt_zero _)
  one _ hi := absurd hi (not_lt_zero _)
  left _ hi := absurd hi (not_lt_zero _)
  column _ hi := absurd hi (not_lt_zero _)
  zeroLeft _ _ _ _ hk := absurd hk (not_lt_zero _)

/-- Modulo `1` everything is a solution. -/
lemma correct_one : Correct 1 nrows ncols s (.unique, ⟨fun _ => 0, fun _ _ => 0⟩) := by
  have hall : ∀ t x, Solves 1 nrows ncols t x := fun _ _ _ _ => one_dvd _
  refine ⟨⟨fun _ => 0, hall _ _⟩, fun x => iff_of_true (hall _ _) (hall _ _),
    ⟨fun _ => 0, 0, ⟨zero_le _, ?_, ?_, ?_, ?_, ?_, fun _ _ _ _ _ => rfl⟩, fun _ _ _ => rfl⟩, ?_⟩
  · exact fun _ hi => absurd hi (not_lt_zero _)
  · exact fun _ _ _ hj => absurd hj (not_lt_zero _)
  · exact fun _ hi => absurd hi (not_lt_zero _)
  · exact fun _ hi => absurd hi (not_lt_zero _)
  · exact fun _ hi => absurd hi (not_lt_zero _)
  · exact fun _ _ _ _ _ _ _ hne => absurd (one_dvd _) hne

/-- Gaussian elimination modulo any number keeps the solutions. -/
theorem gaussElim_correct {res : Result × System} (hprime : 1 ≤ prime) (hle : nrows ≤ ncols)
    (hpos : Nonneg nrows ncols s) (hres : gaussElim prime nrows ncols s = some res) :
    Correct prime nrows ncols s res := by
  unfold gaussElim at hres
  by_cases hone : prime = 1
  · rw [if_pos hone] at hres
    cases hres
    rw [hone]
    exact correct_one
  rw [if_neg hone] at hres
  have hprime : 1 < prime := by omega
  obtain ⟨t, ht, hres⟩ := bind_inv hres
  cases hres
  obtain ⟨heq, hnonneg, piv, r, hech⟩ :=
    eliminate_spec hprime (Nat.zero_add nrows) reduced_start ht
  refine correct_of_finished (Finished.of_equivalent ?_ heq)
  exact finish_spec hprime hle (Nat.zero_add nrows) hech (hnonneg hpos) false
    (fun _ hi => absurd hi (Nat.not_lt_zero _)) fun _ _ hi => absurd hi (Nat.not_lt_zero _)

/-- Two equations in two unknowns. -/
def twoEquations : System where
  rhs i := if i = 0 then 3 else 4
  lhs i k := if k = 0 then 1 else if i = 0 then 2 else 8

theorem gaussElim_twoEquations : ∃ t, gaussElim 5 2 2 twoEquations = some (.unique, t) ∧
    Correct 5 2 2 twoEquations (.unique, t) := by
  obtain ⟨t, ht⟩ : ∃ t, gaussElim 5 2 2 twoEquations = some (.unique, t) := ⟨_, rfl⟩
  refine ⟨t, ht, gaussElim_correct (by decide) (Nat.le_refl 2) ?_ ht⟩
  intro i _ k _
  change 0 ≤ if k = 0 then (1 : Int) else if i = 0 then 2 else 8
  split
  · decide
  split
  · decide
  · decide

end EthosCpc.Cvc5.BvGauss
