import EthosCpc.Cpc.ArithMult
import EthosCpc.Library.Loop

/-!
# The calls of `$mk_arith_mult_sign_sgn`

The last case encloses its formula in a conjunction and calls itself.  For a
literal that settles the sign of the next factor that is the end, and for any
other formula it is a conjunction that no case but the last one takes.
-/

namespace EthosCpc

open Term (bop uop)
open Library (Loop.run)

/-- The call that a call of `$mk_arith_mult_sign_sgn` ends in.  `eo::requires` evaluates all its
arguments, so a check that fails does not keep the call in it from being made. -/
def nextCall : Bool × Term × Term → Option (Bool × Term × Term)
  | (sgn, F, m) =>
    match matchNeq F m with
    | some (t, _, F', m') => some (sgn, F', stripEvenExponent t m')
    | none =>
    match matchRel .gt F m with
    | some (t, _, F', m') => some (sgn, F', stripEvenExponent t m')
    | none =>
    match matchRel .lt F m with
    | some (t, _, F', m') => some (!sgn, F', stripEvenExponent t m')
    | none => if F = .bool true then none else some (sgn, bop .and F (.bool true), m)

/-- What is left of a monomial when a literal settles the sign of its first factor. -/
def settles (A m : Term) : Option Term :=
  ((matchNeq (bop .and A (.bool true)) m).or
    ((matchRel .gt (bop .and A (.bool true)) m).or (matchRel .lt (bop .and A (.bool true)) m))).map
    fun (t, _, _, m') => stripEvenExponent t m'

/-- The literals of a conjunction settle the signs of factors, each of the first one left, until
the conjunction or all but one literal of it is used up. -/
def SignsSettled : Term → Term → Prop
  | .app (.app (.sym .and) A) B, m =>
    match settles A m with
    | some m' => SignsSettled B m'
    | none => False
  | F, m => F = .bool true ∨ (settles F m).isSome

lemma matchNeq_and (A B m : Term) : matchNeq (bop .and A B) m =
    (matchNeq (bop .and A (.bool true)) m).map fun (t, z, _, m') => (t, z, B, m') := by
  unfold matchNeq
  split
  · rename_i t z F t1 t2 m' hF
    cases hF
    by_cases h : t1 = t ∧ t2 = t <;> simp [h]
  rename_i hno
  split
  · rename_i t z F t1 t2 m' hF
    cases hF
    exact absurd rfl (hno t z B t1 t2 m' rfl)
  · rfl

lemma matchRel_and (r : Sym) (A B m : Term) : matchRel r (bop .and A B) m =
    (matchRel r (bop .and A (.bool true)) m).map fun (t, z, _, m') => (t, z, B, m') := by
  unfold matchRel
  split
  · rename_i r' t z F t1 m' hF
    cases hF
    by_cases h : r' = r ∧ t1 = t <;> simp [h]
  rename_i hno
  split
  · rename_i r' t z F t1 m' hF
    cases hF
    exact absurd rfl (hno r' t z B t1 m' rfl)
  · rfl

lemma nextCall_and (sgn : Bool) (A B m : Term) :
    match settles A m with
    | some m' => ∃ sgn', nextCall (sgn, bop .and A B, m) = some (sgn', B, m')
    | none => nextCall (sgn, bop .and A B, m) =
        some (sgn, bop .and (bop .and A B) (.bool true), m) := by
  unfold nextCall settles
  dsimp only
  rw [matchNeq_and A B, matchRel_and .gt A B, matchRel_and .lt A B]
  cases matchNeq (bop .and A (.bool true)) m with
  | some r => exact ⟨_, rfl⟩
  | none =>
    cases matchRel .gt (bop .and A (.bool true)) m with
    | some r => exact ⟨_, rfl⟩
    | none =>
      cases matchRel .lt (bop .and A (.bool true)) m with
      | some r => exact ⟨_, rfl⟩
      | none => rfl

lemma nextCall_of_ne {F : Term} (hF : ∀ A B, F ≠ bop .and A B) (sgn : Bool) (m : Term) :
    nextCall (sgn, F, m) =
      if F = .bool true then none else some (sgn, bop .and F (.bool true), m) := by
  have hneq : matchNeq F m = none := by
    cases h : matchNeq F m with
    | none => rfl
    | some r =>
      unfold matchNeq at h
      split at h
      · exact absurd rfl (hF _ _)
      · cases h
  have hrel : ∀ r, matchRel r F m = none := by
    intro r
    cases h : matchRel r F m with
    | none => rfl
    | some p =>
      unfold matchRel at h
      split at h
      · exact absurd rfl (hF _ _)
      · cases h
  rw [nextCall, hneq, hrel, hrel]

lemma settles_and (A B m : Term) : settles (bop .and A B) m = none := by
  have hrel : ∀ r, r ≠ .and → matchRel r (bop .and (bop .and A B) (.bool true)) m = none := by
    intro r hr
    unfold matchRel
    split
    · rename_i r' t z F t1 m' hF
      cases hF
      exact if_neg fun h => hr h.1.symm
    · rfl
  unfold settles
  rw [hrel .gt (by decide), hrel .lt (by decide)]
  rfl

lemma run_of_not_settled (k : Nat) {sgn : Bool} {A B m : Term} (h : settles A m = none) :
    Loop.run nextCall k (sgn, bop .and A B, m) = none := by
  induction k generalizing A B with
  | zero => rfl
  | succ k ih =>
    have hnext := nextCall_and sgn A B m
    rw [h] at hnext
    rw [Loop.run, hnext]
    exact ih (settles_and A B m)

lemma run_cons {c c' : Bool × Term × Term} (h : nextCall c = some c') :
    (∃ k e, Loop.run nextCall k c = some e) ↔ ∃ k e, Loop.run nextCall k c' = some e := by
  constructor
  · rintro ⟨k, e, hk⟩
    cases k with
    | zero => cases hk
    | succ k =>
      rw [Loop.run, h] at hk
      exact ⟨k, e, hk⟩
  · rintro ⟨k, e, hk⟩
    exact ⟨k + 1, e, by rw [Loop.run, h]; exact hk⟩

lemma run_true (sgn : Bool) (m : Term) : ∃ k e, Loop.run nextCall k (sgn, .bool true, m) = some e :=
  ⟨1, _, by rw [Loop.run, nextCall_of_ne fun _ _ h => by cases h]; rfl⟩

/-- The sequence of the calls is finite if and only if the formula is used up by the monomial. -/
theorem mkArithMultSignSgn_terminates_iff (sgn : Bool) (F m : Term) :
    (∃ k e, Loop.run nextCall k (sgn, F, m) = some e) ↔ SignsSettled F m := by
  induction F, m using SignsSettled.induct generalizing sgn with
  | case1 A B m m' hs ih =>
    have hnext := nextCall_and sgn A B m
    rw [hs] at hnext
    obtain ⟨sgn', hnext⟩ := hnext
    rw [SignsSettled, hs]
    exact (run_cons hnext).trans (ih sgn')
  | case2 A B m hs =>
    rw [SignsSettled, hs]
    refine iff_false_intro ?_
    rintro ⟨k, e, hk⟩
    rw [show Term.app (.app (.sym .and) A) B = bop .and A B from rfl, run_of_not_settled k hs] at hk
    cases hk
  | case3 F m hF =>
    rw [SignsSettled]
    · have hnext := nextCall_of_ne (fun A B => hF A B) sgn m
      by_cases htrue : F = .bool true
      · rw [htrue]
        exact iff_of_true (run_true sgn m) (.inl rfl)
      rw [if_neg htrue] at hnext
      rw [run_cons hnext, or_iff_right htrue]
      cases hs : settles F m with
      | none =>
        refine iff_of_false ?_ (by simp)
        rintro ⟨k, e, hk⟩
        rw [run_of_not_settled k hs] at hk
        cases hk
      | some m' =>
        have hlit := nextCall_and sgn F (.bool true) m
        rw [hs] at hlit
        obtain ⟨sgn', hlit⟩ := hlit
        exact iff_of_true ((run_cons hlit).2 (run_true sgn' m')) rfl
    · exact hF

/-- For the formula `false` the calls do not end. -/
theorem mkArithMultSignSgn_diverges :
    ¬ ∀ sgn F m, ∃ k e, Loop.run nextCall k (sgn, F, m) = some e := by
  intro h
  obtain ⟨k, e, hk⟩ := (run_cons (nextCall_of_ne (fun _ _ h => by cases h) true (.num 1))).1
    (h true (.bool false) (.num 1))
  rw [run_of_not_settled k rfl] at hk
  cases hk

end EthosCpc
