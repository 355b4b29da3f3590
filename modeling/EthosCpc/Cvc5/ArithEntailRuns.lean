import EthosCpc.Cvc5.ConstantBoundSpec

/-!
# Arithmetic entailment over whole runs

The caches are right after any run of tests, also of tests of terms in which
`rewriteLengthIntro` drops an operator.  So a test is right when no operator is
dropped in the term that it is about.
-/

namespace EthosCpc.Cvc5.Entail

open Library
open Library.MapPoly (IsOrder someOrder isOrder_someOrder)

variable {Γ : Nat → Ty} {le : Node → Node → Bool} {recApprox : Bool}

variable (Γ le recApprox) in
/-- The caches that a run of tests can lead to. -/
inductive Reachable : Caches → Prop
  | empty : Reachable Caches.empty
  | check {c c' : Caches} {fuel : Nat} {a : Node} {strict isSimple b : Bool} (hc : Reachable c)
      (h : check Γ le recApprox fuel a strict isSimple c = some (b, c')) : Reachable c'
  | checkWithAssumption {c c' : Caches} {fuel slackVal : Nat} {F x y : Node} {strict b : Bool}
      (hc : Reachable c)
      (h : checkWithAssumption Γ le recApprox fuel slackVal F x y strict c = some (b, c')) :
      Reachable c'
  | getConstantBound {c c' : Caches} {a : Node} {isLower : Bool} {b : Option Node}
      (hc : Reachable c) (hty : typeOf Γ a = some .int)
      (h : getConstantBound Γ le isLower a c = some (b, c')) : Reachable c'
  | getConstantBoundLength {c c' : Caches} {s : Node} {T : Ty} {isLower : Bool} {b : Option Node}
      (hc : Reachable c) (hty : typeOf Γ s = some (.seq T))
      (h : getConstantBoundLength isLower s c = some (b, c')) : Reachable c'

lemma Reachable.cachesOk (hle : IsOrder le) {c : Caches} (hc : Reachable Γ le recApprox c) :
    CachesOk Γ c := by
  induction hc with
  | empty => exact cachesOk_empty Γ
  | check _ h ih => exact (check_ok hle _ _ _ _ _ _ ih _ _ h).1
  | checkWithAssumption _ h ih => exact (checkWithAssumption_ok hle _ _ _ _ _ _ _ ih _ _ h).1
  | getConstantBound _ hty h ih => exact (getConstantBound_ok hle hty _ ih _ _ h).1
  | getConstantBoundLength _ hty h ih => exact (getConstantBoundLength_ok hty _ ih _ _ h).1

/-- After any run of tests: a test of a clean term is right, a test with an assumption is right
when the terms that it looks at are clean, and constant bounds are valid. -/
theorem arithEntail_sound (hle : IsOrder le) {c : Caches} (hc : Reachable Γ le recApprox c) :
    (∀ fuel a strict isSimple c', clean a = true →
      check Γ le recApprox fuel a strict isSimple c = some (true, c') →
        ∀ (I : Interp Γ) (z : Int), eval I a = some (.int z) → if strict then 0 < z else 0 ≤ z) ∧
    (∀ fuel slackVal F a b strict c', IsSlack Γ slackVal [F, a, b] →
      cleanUnder Γ le slackVal F a b = true →
      checkWithAssumption Γ le recApprox fuel slackVal F a b strict c = some (true, c') →
        ∀ (I : Interp Γ) (x y : Int), eval I F = some (.bool true) → eval I a = some (.int x) →
          eval I b = some (.int y) → if strict then y < x else y ≤ x) ∧
    (∀ isLower a b c', typeOf Γ a = some .int →
      getConstantBound Γ le isLower a c = some (some b, c') → ∃ q : Int, b = .constInteger q ∧
        ∀ (I : Interp Γ) (z : Int), eval I a = some (.int z) → if isLower then q ≤ z else z ≤ q) ∧
    ∀ isLower s b c' T, typeOf Γ s = some (.seq T) →
      getConstantBoundLength isLower s c = some (some b, c') → ∃ q : Int, b = .constInteger q ∧
        ∀ (I : Interp Γ) (l : List (Dom I.U T)), eval I s = some (.seq T l) →
          if isLower then q ≤ l.length else (l.length : Int) ≤ q := by
  have hok := hc.cachesOk hle
  refine ⟨?_, ?_, ?_, ?_⟩
  · intro fuel a strict isSimple c' hclean h
    exact (check_ok hle recApprox fuel a strict isSimple c hok _ _ h).2 rfl hclean
  · intro fuel slackVal F a b strict c' hslack hclean h
    exact (checkWithAssumption_ok hle recApprox fuel F a b strict c hok _ _ h).2 rfl hslack hclean
  · intro isLower a b c' hty h
    obtain ⟨q, hq, hval, _⟩ := (getConstantBound_ok hle hty c hok _ _ h).2 b rfl
    refine ⟨q, hq, fun I z hz => ?_⟩
    have hbound := hval I _ _ (arithVal_of_int hz)
    cases isLower with
    | true => exact_mod_cast hbound
    | false => exact (Int.cast_inj.1 hbound).le
  intro isLower s b c' T hty h
  obtain ⟨q, hq, _, hval⟩ := (getConstantBoundLength_ok hty c hok _ _ h).2 b rfl
  refine ⟨q, hq, fun I l hl => ?_⟩
  have hbound := hval I T l hl
  cases isLower with
  | true => exact hbound
  | false => exact hbound.le

/-! ## The dropped operator -/

section Unsound

/-- Two functions of two integers with strings for values, two strings and an integer. -/
def entailSig : Nat → Ty
  | 0 | 1 => .fn .int (.fn .int (.seq .char))
  | 2 | 3 => .seq .char
  | _ => .int

/-- The first function gives the empty string and the second does not. -/
noncomputable def entailInterp : Interp entailSig where
  U := fun _ => Unit
  const
    | 0 => fun _ _ => ([] : Str)
    | 1 => fun _ _ => ([0] : Str)
    | 2 | 3 => ([] : Str)
    | _ + 4 => (0 : Int)
  divByZero := fun x => x
  intDivByZero := fun x => x
  modByZero := fun x => x

def lenOfLen (f : Nat) : Node :=
  mkLen (.app .applyUf [.var f, mkLen (.app .strConcat [.var 2, .var 3]), .var 4])

/-- Two lengths become the same when their functions are dropped. -/
theorem check_unsound :
    (∃ c, check entailSig someOrder true 2 (mkSub (lenOfLen 0) (lenOfLen 1)) false false
      Caches.empty = some (true, c)) ∧
    eval entailInterp (mkSub (lenOfLen 0) (lenOfLen 1)) = some (.int (-1)) := by
  have hrewrite : rewriteArith entailSig someOrder (mkSub (lenOfLen 0) (lenOfLen 1)) =
      some (.constInteger 0) := by decide +kernel
  refine ⟨⟨Caches.empty.setApprox false (.constInteger 0) (some (.constInteger 0)), ?_⟩, rfl⟩
  change (ofOption (rewriteArith entailSig someOrder (mkSub (lenOfLen 0) (lenOfLen 1))) >>=
    fun ar => findApprox entailSig someOrder true 1 (check entailSig someOrder true 1) ar false >>=
      fun ara => pure ara.isSome) Caches.empty = _
  rw [hrewrite]
  rfl

/-- The length of a string variable is not negative. -/
theorem arithEntail_sound_len :
    ∃ z : Int, eval entailInterp (mkLen (.var 2)) = some (.int z) ∧ 0 ≤ z :=
  ⟨0, rfl, (arithEntail_sound isOrder_someOrder
    (Reachable.empty : Reachable entailSig someOrder true Caches.empty)).1 2 (mkLen (.var 2))
    false true _ (by decide +kernel) (by rfl) entailInterp 0 rfl⟩

end Unsound

end EthosCpc.Cvc5.Entail
