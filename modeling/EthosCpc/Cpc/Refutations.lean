import EthosCpc.Ethos.ProofCommands
import EthosCpc.Cpc.AciNormSpec
import EthosCpc.Cpc.ArithBvConvSpec
import EthosCpc.Cpc.ArithLinearSpec
import EthosCpc.Cpc.BooleansSpec
import EthosCpc.Cpc.BvRewritesSpec
import EthosCpc.Cpc.Propositional
import EthosCpc.Cpc.StrArithEntailSpec

/-!
# Refutations

The proofs that Ethos accepts with rules of the signature: what such a proof derives from the
assertions it refers to is true in every interpretation of them.  The rules are those modelled
here that conclude only what follows from their premises.
-/

namespace EthosCpc

open Term (bop uop)

variable {Γ : Nat → Ty} {I : Interp Γ}

lemma holds_sat {F : Term} (hF : typeof Γ F = some .bool) : holds (Sat I) F ↔ Sat I F := by
  induction F using holds.induct with
  | case1 b => exact (boolVal_bool b).sat.symm
  | case2 a ih =>
    have ha := typeof_not_inv hF
    rw [holds, ih ha]
    exact (boolVal_not (boolVal_of_typeof ha)).sat.symm
  | case3 a b iha ihb =>
    obtain ⟨ha, hb⟩ := typeof_connective_inv rfl rfl hF
    rw [holds, iha ha, ihb hb]
    exact (boolVal_or (boolVal_of_typeof ha) (boolVal_of_typeof hb)).sat.symm
  | case4 a b iha ihb =>
    obtain ⟨ha, hb⟩ := typeof_connective_inv rfl rfl hF
    rw [holds, iha ha, ihb hb]
    exact (boolVal_and (boolVal_of_typeof ha) (boolVal_of_typeof hb)).sat.symm
  | case5 a b iha ihb =>
    obtain ⟨ha, hb⟩ := typeof_connective_inv rfl rfl hF
    rw [holds, iha ha, ihb hb]
    exact (boolVal_imp (boolVal_of_typeof ha) (boolVal_of_typeof hb)).sat.symm
  | case6 a b iha ihb =>
    obtain ⟨ha, hb⟩ := typeof_connective_inv rfl rfl hF
    rw [holds, iha ha, ihb hb]
    exact (boolVal_xor (boolVal_of_typeof ha) (boolVal_of_typeof hb)).sat.symm
  | case7 t =>
    rw [holds]
    all_goals assumption

/-! ## The rules -/

inductive CpcRule
  | scope
  | prop (r : PropRule) (hr : r ∈ PropRule.all)
  | andElim | andIntro | notOrElim | notAnd | cnfAndPos | cnfAndNeg | cnfOrNeg | refl | symm | trans
  | resolution | chainResolution | factoring | reordering | arithSumUb | arithMultNeg
  | arithTrichotomy | intTightUb | intTightLb | arithPolyNormRel | aciNorm | absorb | bvPolyNormEq
  | arithStringPredEntail | arithStringPredSafeApprox | ubvToIntElim
  | arith (o : ArithRewrite) (ho : o ≠ .intEqConflict)

variable (compareVars : List Term → List Term → Bool) (compareVar : Term → Term → Bool)

/-- The programs of the rules, by arguments and premises.  `scope` has its assumption as an
argument. -/
def CpcRule.program (Γ : Nat → Ty) : CpcRule → List Term → List Term → Option Term
  | .scope, [F], [G] => some (bop .imp F G)
  | .prop r _, ts, Fs => r.apply ts Fs
  | .andElim, [.num i], [Fs] => EthosCpc.andElim Fs i
  | .andIntro, [], Fs => some (mkAnd Fs)
  | .notOrElim, [.num i], [F] => EthosCpc.notOrElim F i
  | .notAnd, [], [F] => EthosCpc.notAnd F
  | .cnfAndPos, [Fs, .num i], [] => EthosCpc.cnfAndPos Fs i
  | .cnfAndNeg, [Fs], [] => EthosCpc.cnfAndNeg Fs
  | .cnfOrNeg, [Fs, .num i], [] => EthosCpc.cnfOrNeg Fs i
  | .refl, [t], [] => some (Uf.refl t)
  | .symm, [], [F] => Uf.mkSymm F
  | .trans, [], Fs => Uf.trans Fs
  | .resolution, [pol, L], [C1, C2] => EthosCpc.resolution C1 C2 pol L
  | .chainResolution, [pols, lits], Fs => EthosCpc.chainResolution Fs pols lits
  | .factoring, [], [C] => EthosCpc.factoring C
  | .reordering, [C2], [C1] => EthosCpc.reordering C1 C2
  | .arithSumUb, [], Fs => EthosCpc.arithSumUb Γ Fs
  | .arithMultNeg, [m, F], [] => EthosCpc.arithMultNeg Γ m F
  | .arithTrichotomy, [], [F1, F2] => EthosCpc.arithTrichotomy F1 F2
  | .intTightUb, [], [F] => EthosCpc.intTightUb F
  | .intTightLb, [], [F] => EthosCpc.intTightLb F
  | .arithPolyNormRel, [F], [P] => EthosCpc.arithPolyNormRel P F
  | .aciNorm, [F], [] => EthosCpc.aciNorm Γ F
  | .absorb, [F], [] => EthosCpc.absorb Γ F
  | .bvPolyNormEq, [F], [P] => EthosCpc.bvPolyNormEq P F
  | .arithStringPredEntail, [F], [] => EthosCpc.arithStringPredEntail compareVars compareVar F
  | .arithStringPredSafeApprox, [F], [] =>
    EthosCpc.arithStringPredSafeApprox compareVars compareVar F
  | .ubvToIntElim, [F], [] => EthosCpc.ubvToIntElim Γ F
  | .arith o _, ts, Fs => (o.apply Γ ts).bind fun r => if r.1 = Fs then some r.2 else none
  | _, _, _ => none

/-- Ethos with the signature of cvc5. -/
def cpcChecker (Γ : Nat → Ty) (reference : Option (List Term × (Term → Term))) :
    Checker CpcRule Term where
  rules r := ⟨r matches .scope, false, r.program compareVars compareVar Γ⟩
  isBool F := typeof Γ F = some .bool
  reference := reference

lemma sat_of_program {r : CpcRule} {ts Fs : List Term} {G : Term} (hr : r ≠ .scope)
    (h : r.program compareVars compareVar Γ ts Fs = some G) (hG : typeof Γ G = some .bool)
    (hFs : ∀ F ∈ Fs, typeof Γ F = some .bool ∧ Sat I F) : Sat I G := by
  have hsat : ∀ F ∈ Fs, Sat I F := fun F hF => (hFs F hF).2
  have hholds : ∀ F ∈ Fs, holds (Sat I) F := fun F hF => (holds_sat (hFs F hF).1).2 (hsat F hF)
  cases r with
  | scope => contradiction
  | prop r hmem => exact (PropRule.valid_of_mem r hmem).sat h hG hFs
  | andElim =>
    rcases ts with _ | ⟨_ | i, _ | _⟩ <;> rcases Fs with _ | ⟨F, _ | _⟩ <;> try contradiction
    exact (holds_sat hG).1 (holds_andElim h (hholds _ (.head _)))
  | andIntro =>
    rcases ts with _ | _ <;> try contradiction
    cases h
    exact sat_mkAnd.2 hsat
  | notOrElim =>
    rcases ts with _ | ⟨_ | i, _ | _⟩ <;> rcases Fs with _ | ⟨F, _ | _⟩ <;> try contradiction
    exact (holds_sat hG).1 (holds_notOrElim h (hholds _ (.head _)))
  | notAnd =>
    rcases ts with _ | _ <;> rcases Fs with _ | ⟨F, _ | _⟩ <;> try contradiction
    exact (holds_sat hG).1 (holds_notAnd h (hholds _ (.head _)))
  | cnfAndPos =>
    rcases ts with _ | ⟨F, _ | ⟨_ | i, _ | _⟩⟩ <;> rcases Fs with _ | _ <;> try contradiction
    exact (holds_sat hG).1 (holds_cnfAndPos h)
  | cnfAndNeg =>
    rcases ts with _ | ⟨F, _ | _⟩ <;> rcases Fs with _ | _ <;> try contradiction
    exact (holds_sat hG).1 (holds_cnfAndNeg h)
  | cnfOrNeg =>
    rcases ts with _ | ⟨F, _ | ⟨_ | i, _ | _⟩⟩ <;> rcases Fs with _ | _ <;> try contradiction
    exact (holds_sat hG).1 (holds_cnfOrNeg h)
  | refl =>
    rcases ts with _ | ⟨t, _ | _⟩ <;> rcases Fs with _ | _ <;> try contradiction
    cases h
    exact Uf.refl_sat hG
  | symm =>
    rcases ts with _ | _ <;> rcases Fs with _ | ⟨F, _ | _⟩ <;> try contradiction
    exact Uf.mkSymm_sat h hG (hsat _ (.head _))
  | trans =>
    rcases ts with _ | _ <;> try contradiction
    exact Uf.trans_sat h hsat
  | resolution =>
    rcases ts with _ | ⟨pol, _ | ⟨L, _ | _⟩⟩ <;>
      rcases Fs with _ | ⟨C1, _ | ⟨C2, _ | _⟩⟩ <;> try contradiction
    exact (holds_sat hG).1 (resolve_holds h (hholds _ (.head _)) (hholds _ (.tail _ (.head _))))
  | chainResolution =>
    rcases ts with _ | ⟨pols, _ | ⟨lits, _ | _⟩⟩ <;> try contradiction
    exact (holds_sat hG).1 (chainResolution_holds h hholds)
  | factoring =>
    rcases ts with _ | _ <;> rcases Fs with _ | ⟨C, _ | _⟩ <;> try contradiction
    exact (holds_sat hG).1 (factoring_holds h (hholds _ (.head _)))
  | reordering =>
    rcases ts with _ | ⟨C2, _ | _⟩ <;> rcases Fs with _ | ⟨C1, _ | _⟩ <;> try contradiction
    exact (holds_sat hG).1 (reordering_holds h (hholds _ (.head _)))
  | arithSumUb =>
    rcases ts with _ | _ <;> try contradiction
    exact arithSumUb_sat h hG hsat
  | arithMultNeg =>
    rcases ts with _ | ⟨m, _ | ⟨F, _ | _⟩⟩ <;> rcases Fs with _ | _ <;> try contradiction
    exact arithMultNeg_sat h hG
  | arithTrichotomy =>
    rcases ts with _ | _ <;> rcases Fs with _ | ⟨F1, _ | ⟨F2, _ | _⟩⟩ <;> try contradiction
    exact arithTrichotomy_sat h hG (hsat _ (.head _)) (hsat _ (.tail _ (.head _)))
  | intTightUb =>
    rcases ts with _ | _ <;> rcases Fs with _ | ⟨F, _ | _⟩ <;> try contradiction
    exact intTightUb_sat h hG (hsat _ (.head _))
  | intTightLb =>
    rcases ts with _ | _ <;> rcases Fs with _ | ⟨F, _ | _⟩ <;> try contradiction
    exact intTightLb_sat h hG (hsat _ (.head _))
  | arithPolyNormRel =>
    rcases ts with _ | ⟨F, _ | _⟩ <;> rcases Fs with _ | ⟨P, _ | _⟩ <;> try contradiction
    exact arithPolyNormRel_sound h (hsat _ (.head _))
  | aciNorm =>
    rcases ts with _ | ⟨F, _ | _⟩ <;> rcases Fs with _ | _ <;> try contradiction
    change EthosCpc.aciNorm Γ F = some G at h
    obtain ⟨a, b, rfl⟩ : ∃ a b, F = bop .eq a b := by
      unfold EthosCpc.aciNorm at h
      split at h
      · exact ⟨_, _, rfl⟩
      · cases h
    obtain ⟨rfl, -⟩ := aciNorm_inv h
    exact sat_of_aciNorm hG h
  | absorb =>
    rcases ts with _ | ⟨F, _ | _⟩ <;> rcases Fs with _ | _ <;> try contradiction
    change EthosCpc.absorb Γ F = some G at h
    obtain ⟨a, b, rfl⟩ : ∃ a b, F = bop .eq a b := by
      unfold EthosCpc.absorb at h
      split at h
      · exact ⟨_, _, rfl⟩
      · cases h
    obtain ⟨rfl, -⟩ := absorb_inv h
    exact sat_of_absorb hG h
  | bvPolyNormEq =>
    rcases ts with _ | ⟨F, _ | _⟩ <;> rcases Fs with _ | ⟨P, _ | _⟩ <;> try contradiction
    exact sat_of_bvPolyNormEq h (hsat _ (.head _))
  | arithStringPredEntail =>
    rcases ts with _ | ⟨F, _ | _⟩ <;> rcases Fs with _ | _ <;> try contradiction
    exact arithStringPredEntail_sat compareVars compareVar h hG
  | arithStringPredSafeApprox =>
    rcases ts with _ | ⟨F, _ | _⟩ <;> rcases Fs with _ | _ <;> try contradiction
    exact arithStringPredSafeApprox_sat compareVars compareVar h hG
  | ubvToIntElim =>
    rcases ts with _ | ⟨F, _ | _⟩ <;> rcases Fs with _ | _ <;> try contradiction
    exact ubvToIntElim_sat h
  | arith o ho =>
    obtain ⟨r, hr, h⟩ := bind_inv h
    split at h
    swap
    · cases h
    rename_i hprem
    cases h
    exact o.apply_sat hr hG (fun hcmp => ho hcmp.1) (hprem ▸ hsat)

lemma cpcChecker_sound (I : Interp Γ) (reference : Option (List Term × (Term → Term))) :
    (cpcChecker compareVars compareVar Γ reference).Sound
      fun F => typeof Γ F = some .bool ∧ Sat I F where
  step {r ts Fs G} hr h hG hFs := by
    have hG' := of_decide_eq_true hG
    refine ⟨hG', sat_of_program compareVars compareVar ?_ h hG' hFs⟩
    rintro rfl
    cases hr
  discharge {r ts B Fs G} hr h hG himp := by
    have hG' := of_decide_eq_true hG
    refine ⟨hG', ?_⟩
    cases r with
    | scope =>
      rcases ts with _ | ⟨t, ts⟩
      · rcases Fs with _ | ⟨F, _ | _⟩ <;> try contradiction
        cases h
        have hB := (typeof_connective_inv rfl rfl hG').1
        exact sat_imp hG' fun hsat => (himp ⟨hB, hsat⟩ F (.head _)).2
      · rcases ts with _ | _ <;> contradiction
    | _ => cases hr

/-- An assumption is discharged. -/
theorem holds_of_run_scope : ∃ s : ProofState Term Unit,
    ProofState.run (cpcChecker (fun _ _ => true) (fun _ _ => true) (fun _ => .bool) none) {}
      [.assume true "a" (.const 0), .step true "b" none .scope ["a"] []] = some s ∧
    Sat (badInterp fun _ => .bool) (bop .imp (.const 0) (.const 0)) := by
  obtain ⟨s, hs, hopen, hF⟩ : ∃ s : ProofState Term Unit,
      ProofState.run (cpcChecker (fun _ _ => true) (fun _ _ => true) (fun _ => .bool) none) {}
        [.assume true "a" (.const 0), .step true "b" none .scope ["a"] []] = some s ∧
      s.assumptions = [] ∧ s.premise "b" = some (bop .imp (.const 0) (.const 0)) :=
    ⟨_, rfl, rfl, rfl⟩
  have hsound := cpcChecker_sound (fun _ _ => true) (fun _ _ => true) (badInterp fun _ => .bool) none
  exact ⟨s, hs, (ProofState.holds_of_run hsound (by simp [ProofCmd.isScope]) hs (by simp)
    (by simp [hopen]) hF).2⟩

/-- Let Ethos accept a proof that assumes at level zero only, with a reference file and a normal form
that keeps types and values.  If it ends outside of all scopes with a proof of `false`, then the
assertions of the file are unsatisfiable. -/
theorem unsat_of_refutation {A : Type} {asserts : List Term} {nf : Term → Term}
    (htyped : ∀ B ∈ asserts, typeof Γ B = some .bool)
    (hnf : ∀ B C, nf B = nf C → typeof Γ B = typeof Γ C ∧ ∀ I : Interp Γ, value I B = value I C)
    {cs : List (ProofCmd CpcRule Term)} (hcs : ProofCmd.groundAssumes 0 cs) {s : ProofState Term A}
    (hrun : ProofState.run (cpcChecker compareVars compareVar Γ (some (asserts, nf))) {} cs = some s)
    (hctx : s.assumptionsSizeCtx = []) {name : String} (hfalse : s.premise name = some (.bool false))
    (I : Interp Γ) : ∃ B ∈ asserts, ¬ Sat I B := by
  by_contra! hall
  have hsound := cpcChecker_sound compareVars compareVar I (some (asserts, nf))
  have hok := ProofState.Ok.of_reference hsound rfl
    (fun B C heq hB => ⟨(hnf B C heq).1 ▸ hB.1, ((hnf B C heq).2 I).symm.trans hB.2⟩)
    (fun B hB => ⟨htyped B hB, hall B hB⟩) hcs hrun
  have hproved := hok.facts.premise (hok.holds_of_ground hctx) hfalse
  exact Bool.false_ne_true ((boolVal_bool false).sat.1 hproved.2)

/-- Both a constant and its negation are asserted; the proof assumes its way to the conclusion. -/
theorem unsat_of_refutation_contra : ∃ B ∈ [.const 0, uop .not (.const 0)],
    ¬ Sat (badInterp fun _ => .bool) B := by
  let cs : List (ProofCmd CpcRule Term) :=
    [.assume false "a1" (.const 0), .assume false "a2" (uop .not (.const 0)),
      .assume true "a3" (.const 1), .step true "t1" none .scope ["a1"] [],
      .step false "t2" (some (.bool false)) (.prop .contra (by simp [PropRule.all])) ["a1", "a2"] []]
  have hrun : ∃ s : ProofState Term Unit,
      ProofState.run (cpcChecker (fun _ _ => true) (fun _ _ => true) (fun _ => .bool)
        (some ([.const 0, uop .not (.const 0)], id))) {} cs = some s ∧
      s.assumptionsSizeCtx = [] ∧ s.premise "t2" = some (.bool false) := ⟨_, rfl, rfl, rfl⟩
  obtain ⟨s, hs, hctx, hfalse⟩ := hrun
  have hnf : ∀ B C : Term, id B = id C → typeof (fun _ => .bool) B = typeof (fun _ => .bool) C ∧
      ∀ I : Interp fun _ => .bool, value I B = value I C := by
    intro B C heq
    obtain rfl : B = C := heq
    exact ⟨rfl, fun _ => rfl⟩
  have htyped : ∀ B ∈ [.const 0, uop .not (.const 0)], typeof (fun _ => .bool) B = some .bool :=
    List.forall_mem_cons.2 ⟨rfl, List.forall_mem_singleton.2 rfl⟩
  exact unsat_of_refutation (fun _ _ => true) (fun _ _ => true) htyped hnf rfl hs hctx hfalse _

end EthosCpc
